import RrWorkbench.Data.Run
import RrWorkbench.Regtrace
import RrWorkbench.X86.Memory

namespace RrWorkbench.RpcSyscall

open RrWorkbench.Data RrWorkbench.X86
open RrWorkbench.Regtrace (sigtrap stopStatus wifstopped wstopsig wifexited wexitstatus
  wifsignaled wtermsig)

/-! `rpc_syscall.c`: a child asks its tracer, by a syscall that does not exist, for a
`write`, and the tracer makes the child perform five of them at the syscall instruction
that follows. -/

def sysRpc : Word := -42

def sysWrite : Word := 4

def sysExitGroup : Word := 252

def enosys : Word := -38

def stdoutFileno : Word := 1

def sigstop : Nat := 19

def sigkill : Nat := 9

/-! The child. -/

/-- The places at which the child goes on after a syscall: the values of `eip`. -/
inductive Location
  /-- In `raise`, which has made that many syscalls since the stop. -/
  | raise (made : Nat)
  /-- Behind the `int $0x80` of the rpc. -/
  | afterRpc
  /-- Behind the second `int $0x80`, that many syscalls later. -/
  | afterStub (made : Nat)
  deriving DecidableEq, Repr

structure Regs where
  origEax : Word
  eax : Word
  ebx : Word
  ecx : Word
  edx : Word
  esi : Word
  edi : Word
  ebp : Word
  esp : Word
  eip : Location
  deriving DecidableEq, Repr

structure Call where
  nr : Word
  ebx : Word
  ecx : Word
  edx : Word
  deriving DecidableEq, Repr

def Regs.request (regs : Regs) : Call :=
  { nr := regs.eax, ebx := regs.ebx, ecx := regs.ecx, edx := regs.edx }

def Regs.current (regs : Regs) : Call :=
  { nr := regs.origEax, ebx := regs.ebx, ecx := regs.ecx, edx := regs.edx }

def Regs.calling (regs : Regs) (call : Call) (eip : Location) : Regs :=
  { regs with eax := call.nr, ebx := call.ebx, ecx := call.ecx, edx := call.edx, eip := eip }

/-- What the compiler and the C library make of `child`.  The code between its two
`int $0x80` stores `ret`.  Nothing tells the compiler that the second one reads registers,
so `between_request` is a condition on the compiled code. -/
structure Image where
  str : Word
  /-- The syscalls of `raise` that follow the one by which the signal is sent. -/
  raised : List Call
  between : Regs → Regs
  /-- The syscalls of the last `printf` and of the exit handlers, by the value of `ret`. -/
  after : Word → List Call
  leaving : Call
  between_request : ∀ regs, (between regs).request = regs.request
  raised_ne : ∀ call ∈ raised, call.nr ≠ sysRpc ∧ call.nr ≠ sysExitGroup
  after_ne : ∀ ret, ∀ call ∈ after ret, call.nr ≠ sysExitGroup
  leaving_nr : leaving.nr = sysExitGroup

namespace Image

variable (image : Image)

def len : Word := 3

def rpc : Call := { nr := sysRpc, ebx := sysWrite, ecx := image.str, edx := len }

def toSyscall (regs : Regs) (ret : Word) : Regs × Word :=
  match regs.eip with
  | .raise made =>
      match image.raised[made]? with
      | some call => (regs.calling call (.raise (made + 1)), ret)
      | none => (regs.calling image.rpc .afterRpc, ret)
  | .afterRpc => ({ image.between regs with eip := .afterStub 0 }, regs.eax)
  | .afterStub made =>
      (regs.calling ((image.after ret)[made]?.getD image.leaving) (.afterStub (made + 1)), ret)

end Image

inductive Stop
  /-- Before a signal is delivered; the parent never passes it on. -/
  | signal (sig : Nat)
  | entry
  | exit
  deriving DecidableEq, Repr

/-- Without `PTRACE_O_TRACESYSGOOD` a syscall stop is a stop by `SIGTRAP`. -/
def Stop.status : Stop → Nat
  | .signal sig => stopStatus 0 sig
  | .entry | .exit => stopStatus 0 sigtrap

/-- `traced` is how the child was resumed last: by `PTRACE_SYSCALL` or by `PTRACE_CONT`.
`waited` says that `waitpid` has reported the stop or the exit. -/
inductive Phase
  /-- Up to the stop by `SIGSTOP`. -/
  | starting
  | user (traced : Bool)
  | kernel (traced : Bool)
  | stopped (stop : Stop) (waited : Bool)
  | exited (waited : Bool)
  deriving DecidableEq, Repr

/-- `performed` are the syscalls that the kernel has carried out since the stop by
`SIGSTOP`. -/
structure Child where
  phase : Phase
  regs : Regs
  ret : Word
  performed : List Call
  deriving DecidableEq, Repr

namespace Child

variable (c : Child)

def toSyscall (image : Image) : Child :=
  let asking := image.toSyscall c.regs c.ret
  { c with
    regs := { asking.1 with origEax := asking.1.eax, eax := enosys }
    ret := asking.2 }

/-- The kernel carries out the syscall.  There is none with a negative number. -/
def answered (result : Word) : Child :=
  { c with
    regs := { c.regs with eax := if c.regs.origEax.msb then enosys else result }
    performed := c.performed ++ [c.regs.current] }

def enter (image : Image) (traced : Bool) : Child :=
  { c.toSyscall image with phase := if traced then .stopped .entry false else .kernel false }

def leave (result : Word) (traced : Bool) : Child :=
  { c.answered result with phase := if traced then .stopped .exit false else .user false }

def exit : Child :=
  { c with phase := .exited false, performed := c.performed ++ [c.regs.current] }

def exitStatus : Nat := c.regs.ebx.toNat % 0x100 * 0x100

/-! The requests of `ptrace` fail unless the child is stopped, and nothing looks at
what they return. -/

def resume (traced : Bool) : Child :=
  match c.phase with
  | .stopped .entry _ => { c with phase := .kernel traced }
  | .stopped _ _ => { c with phase := .user traced }
  | _ => c

def getRegs (regs : Regs) : Regs :=
  match c.phase with
  | .stopped _ _ => c.regs
  | _ => regs

def setRegs (regs : Regs) : Child :=
  match c.phase with
  | .stopped _ _ => { c with regs := regs }
  | _ => c

/-- `waitpid`: no result while there is nothing to report; once the child is gone, it
fails and leaves `status` alone. -/
def waitpid (status : Nat) : Option (Nat × Child) :=
  match c.phase with
  | .stopped stop false => some (stop.status, { c with phase := .stopped stop true })
  | .exited false => some (c.exitStatus, { c with phase := .exited true })
  | .exited true => some (status, c)
  | _ => none

end Child

/-! The parent. -/

inductive Message
  | stoppedBySignal (sig : Nat)
  | continued
  | exited (code : Nat)
  | terminated (sig : Nat)
  | runningNormally
  | requestsRpc (syscallno str len : Word)
  | advanceToRpcExit
  | settingRet (eip : Location)
  | enteringSyscall
  | finishingSyscall
  | restoringRegs
  | atSyscall (origEax : Word)
  deriving DecidableEq, Repr

def wifcontinued (status : Nat) : Bool := status == 0xffff

def dumpStatus (status : Nat) : Message × Bool :=
  if wifstopped status then (.stoppedBySignal (wstopsig status), true)
  else if wifcontinued status then (.continued, true)
  else if wifexited status then (.exited (wexitstatus status), false)
  else if wifsignaled status then (.terminated (wtermsig status), false)
  else (.runningNormally, true)

structure Parent where
  status : Nat
  regs : Regs
  callregs : Regs
  str : Word
  len : Word
  said : List Message
  deriving DecidableEq, Repr

def Parent.say (p : Parent) (message : Message) : Parent :=
  { p with said := p.said ++ [message] }

def Parent.artificialCall (p : Parent) : Regs :=
  { p.callregs with eax := sysWrite, ebx := stdoutFileno, ecx := p.str, edx := p.len }

inductive Op
  | cont
  | syscall
  | waitpid
  | dumpStatus
  | getRegs
  /-- The condition of the `if`, and the variables of its body. -/
  | ifRpc
  | say (message : Message)
  /-- From `regs.eax = 0` to the `memcpy`. -/
  | setRet
  /-- The body of the `for` up to `callregs.eip = regs.eip`. -/
  | setCall
  | restoreRegs
  | printSyscall
  /-- The condition of the `do` loop. -/
  | whileStatus
  deriving DecidableEq, Repr

def injectCall : List Op :=
  [.setCall, .say .enteringSyscall, .syscall, .waitpid, .dumpStatus,
    .say .finishingSyscall, .syscall, .waitpid, .dumpStatus]

def serveRpc : List Op :=
  [.say .advanceToRpcExit, .syscall, .waitpid, .dumpStatus, .getRegs, .setRet] ++
    ((List.replicate 5 injectCall).flatten ++
      [.say .restoringRegs, .restoreRegs, .syscall, .waitpid, .syscall, .waitpid])

def loop : List Op := [.syscall, .waitpid, .getRegs, .printSyscall, .whileStatus]

def parent : List Op :=
  [.cont, .waitpid, .syscall, .waitpid, .dumpStatus, .getRegs, .ifRpc] ++ loop

/-- One operation of the parent: what it goes on with before the rest of its code, its
variables, and the child. -/
def exec (p : Parent) (c : Child) : Op → Option (List Op × Parent × Child)
  | .cont => some ([], p, c.resume false)
  | .syscall => some ([], p, c.resume true)
  | .waitpid =>
      (c.waitpid p.status).map fun reported =>
        ([], { p with status := reported.1 }, reported.2)
  | .dumpStatus => some ([], p.say (dumpStatus p.status).1, c)
  | .getRegs => some ([], { p with regs := c.getRegs p.regs }, c)
  | .ifRpc =>
      if p.regs.origEax = sysRpc then
        some (serveRpc,
          { p with str := p.regs.ecx, len := p.regs.edx }.say
            (.requestsRpc p.regs.ebx p.regs.ecx p.regs.edx), c)
      else some ([], p, c)
  | .say message => some ([], p.say message, c)
  | .setRet =>
      let regs := { p.regs with eax := 0 }
      some ([], { p with regs := regs, callregs := regs }.say (.settingRet regs.eip), c)
  | .setCall =>
      some ([], { p with callregs := { p.artificialCall with eip := p.regs.eip } },
        c.setRegs p.artificialCall)
  | .restoreRegs => some ([], p, c.setRegs p.regs)
  | .printSyscall => some ([], p.say (.atSyscall p.regs.origEax), c)
  | .whileStatus =>
      some (if (dumpStatus p.status).2 then loop else [],
        p.say (dumpStatus p.status).1, c)

/-! Both. -/

inductive Event
  | parent
  /-- The child is stopped by its `SIGSTOP`. -/
  | raise
  | enter
  | leave (result : Word)
  | exit
  /-- A signal comes, such as `SIGPIPE` after a `write`. -/
  | signal (sig : Nat)
  deriving DecidableEq, Repr

/-- The end by `SIGKILL` is left out. -/
def Child.move (image : Image) (c : Child) : Event → Option Child
  | .parent => none
  | .raise =>
      match c.phase with
      | .starting => some { c with phase := .stopped (.signal sigstop) false }
      | _ => none
  | .enter =>
      match c.phase with
      | .user traced => some (c.enter image traced)
      | _ => none
  | .leave result =>
      match c.phase with
      | .kernel traced =>
          if c.regs.origEax = sysExitGroup then none else some (c.leave result traced)
      | _ => none
  | .exit =>
      match c.phase with
      | .kernel _ => if c.regs.origEax = sysExitGroup then some c.exit else none
      | _ => none
  | .signal sig =>
      match c.phase with
      | .user _ =>
          if 0 < sig ∧ sig < 65 ∧ sig ≠ sigkill then
            some { c with phase := .stopped (.signal sig) false }
          else none
      | _ => none

structure State where
  code : List Op
  parent : Parent
  child : Child
  deriving DecidableEq, Repr

def step (image : Image) (s : State) : Event → Option State
  | .parent =>
      match s.code with
      | [] => none
      | op :: rest =>
          (exec s.parent s.child op).map fun done =>
            { code := done.1 ++ rest, parent := done.2.1, child := done.2.2 }
  | event => (s.child.move image event).map fun c => { s with child := c }

/-- After the `fork`.  The parent's variables are not initialized. -/
def initial (p : Parent) (regs : Regs) : State where
  code := parent
  parent := p
  child :=
    { phase := .starting, regs := { regs with eip := .raise 0 }, ret := 0, performed := [] }

end RrWorkbench.RpcSyscall
