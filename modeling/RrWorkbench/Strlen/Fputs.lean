import RrWorkbench.Strlen.Correct

namespace RrWorkbench.Fputs

open RrWorkbench.Strlen
open RrWorkbench.X86
open RrWorkbench.X86.Memory

/-! `_IO_fputs` of `libc-libio-iofputs.c`, the caller that turns the counters of `strlen`
on.  Its assembly is the whole function, up to the `ret` of the compiler, and
`strlen_wrapper` is a jump to `strlen`. -/

inductive Callee
  | strlenWrapper
  | ioFputsRest
  deriving DecidableEq, Repr

inductive Line
  | instr (i : Instr)
  /-- `int $0x80` -/
  | syscall
  | call (callee : Callee)
  | ret
  deriving DecidableEq, Repr

/-- Where a rest of the code is in memory, what the kernel returns, and what
`_IO_fputs_rest` does. -/
structure Env where
  address : List Line → Word
  result : Machine → Word
  ioFputsRest : Machine → Machine

/-- `stops` are the registers at the system calls so far. -/
structure State where
  machine : Machine
  stops : List (Reg → Word)

def Env.call (env : Env) (fuel : Nat) (callee : Callee) (rest : List Line)
    (m : Machine) : Option Machine :=
  match callee with
  | .strlenWrapper =>
      (program.runToAddress fuel
        ⟨.code (program.codeAt .strlen), m.push (env.address rest)⟩).bind
        fun (target, m) => if target = env.address rest then some m else none
  | .ioFputsRest => some (env.ioFputsRest (m.push (env.address rest)))

/-- The address that the code returns to, with the state at that time. -/
def Env.exec (env : Env) (fuel : Nat) :
    List Line → State → Option (Word × State)
  | [], _ => none
  | .instr i :: rest, s => env.exec fuel rest { s with machine := i.exec s.machine }
  | .syscall :: rest, s =>
      env.exec fuel rest
        { machine := s.machine.set .eax (env.result s.machine)
          stops := s.stops ++ [s.machine.regs] }
  | .call callee :: rest, s =>
      (env.call fuel callee rest s.machine).bind fun m =>
        env.exec fuel rest { s with machine := m }
  | .ret :: _, s => some (s.machine.pop.1, { s with machine := s.machine.pop.2 })

def enter : List Instr :=
  [.push (.reg .ebp), .mov .ebp (.reg .esp), .mov .eax (.imm 0xe0)]

def leave : List Instr := [.alu .add .esp (.imm 8), .pop .ebp]

def entryWords (m : Machine) : List Word :=
  [m.mem.read (m.regs .esp), m.mem.read (m.regs .esp + 4),
    m.mem.read (m.regs .esp + 4 + 4)]

/-- Entered with `m`, the function has pushed `words` and changed nothing above. -/
structure Frame (m m' : Machine) (words : List Word) : Prop where
  stack : m'.Stack (words ++ entryWords m)
  esp : m'.regs .esp = m.regs .esp - BitVec.ofNat 32 (4 * words.length)
  mem : SameAbove (m.regs .esp) 32 m.mem m'.mem

namespace Frame

variable {m m' m'' : Machine} {words : List Word} {v : Word}

theorem entry (m : Machine) : Frame m m [] where
  stack := ⟨rfl, rfl, rfl, trivial⟩
  esp := (BitVec.sub_zero _).symm
  mem := .refl

theorem congr (frame : Frame m m' words) (hesp : m''.regs .esp = m'.regs .esp)
    (hmem : m''.mem = m'.mem) : Frame m m'' words where
  stack := by
    rw [Machine.Stack, hesp, hmem]
    exact frame.stack
  esp := hesp.trans frame.esp
  mem := hmem ▸ frame.mem

theorem push (frame : Frame m m' words) (hroom : words.length < 8) :
    Frame m (m'.push v) (v :: words) where
  stack := frame.stack.push (by simp [entryWords]; omega)
  esp := by
    rw [Machine.push_regs, Function.update_self, frame.esp, List.length_cons]
    bv_omega
  mem := by
    refine frame.mem.trans ?_
    have hpush := Machine.sameAbove_push (m := m') (v := v)
    rw [frame.esp] at hpush
    exact (hpush.lower (4 * words.length) (by omega)).mono (by omega)

theorem pushes (saved : List Reg) (hesp : .esp ∉ saved) (frame : Frame m m' words)
    (hroom : saved.length + words.length ≤ 8) :
    Frame m (Instr.execAll (X86.pushes saved) m') (saved.reverse.map m'.regs ++ words) ∧
      ∀ r, r ≠ .esp → (Instr.execAll (X86.pushes saved) m').regs r = m'.regs r := by
  have pushed := X86.pushed saved hesp frame.stack (by simp [entryWords]; omega)
  refine ⟨⟨?_, ?_, ?_⟩, pushed.regs⟩
  · rw [List.append_assoc]
    exact pushed.stack
  · rw [pushed.esp, frame.esp, List.length_append, List.length_map, List.length_reverse]
    bv_omega
  · have hmem := pushed.mem
    rw [frame.esp] at hmem
    exact frame.mem.trans ((hmem.lower (4 * words.length) (by omega)).mono (by omega))

theorem pops (saved : List Reg) (hesp : .esp ∉ saved) (nodup : saved.Nodup)
    {values : List Word} (frame : Frame m m' (values ++ words))
    (hlength : values.length = saved.length) (hroom : saved.length ≤ 8) :
    Frame m (Instr.execAll (X86.pops saved) m') words ∧
      saved.map (Instr.execAll (X86.pops saved) m').regs = values := by
  have hstack : m'.Stack (values ++ (words ++ entryWords m)) := by
    rw [← List.append_assoc]
    exact frame.stack
  have popped := X86.popped saved hesp nodup hlength (by omega) hstack
  refine ⟨⟨popped.stack, ?_, popped.mem.symm ▸ frame.mem⟩, popped.restored⟩
  rw [popped.esp, frame.esp, List.length_append, hlength]
  bv_omega

theorem drop (frame : Frame m m' (v :: words)) (hesp : m''.regs .esp = m'.regs .esp + 4)
    (hmem : m''.mem = m'.mem) : Frame m m'' words where
  stack := by
    rw [Machine.Stack, hesp, hmem]
    exact frame.stack.2
  esp := by
    rw [hesp, frame.esp, List.length_cons]
    bv_omega
  mem := hmem ▸ frame.mem

/-- A function that changes no more than the word below the frame. -/
theorem called (frame : Frame m m' words) (hroom : words.length < 8)
    (hesp : m''.regs .esp = m'.regs .esp)
    (hmem : SameAbove (m'.regs .esp) 4 m'.mem m''.mem) : Frame m m'' words where
  stack := by
    rw [Machine.Stack, hesp]
    exact frame.stack.of_sameAbove hmem (by simp [entryWords]; omega)
  esp := hesp.trans frame.esp
  mem := by
    rw [frame.esp] at hmem
    exact frame.mem.trans ((hmem.lower (4 * words.length) (by omega)).mono (by omega))

end Frame

section Stages

variable {m m' : Machine}

end Stages

end RrWorkbench.Fputs
