import RrWorkbench.X86.Decode
import RrWorkbench.X86.Stack

namespace RrWorkbench.VdsoMonkeypatch

open RrWorkbench.X86 Memory

/-! `vdso_monkeypatch.c`: the code of `__kernel_vsyscall` is overwritten with a jump to
a trampoline, which calls `vsyscall_hook`. -/

/-- Neither the patched code nor the trampoline has labels. -/
abbrev Code : Type := List (Stmt Empty)

def vsyscallImpl : List Byte :=
  [0x51, 0x52, 0x55, 0x89, 0xe5, 0x0f, 0x34, 0x90, 0x90, 0x90, 0x90, 0x90, 0x90, 0x90,
    0xcd, 0x80, 0x5d, 0x5a, 0x59, 0xc3]

def vsyscallMonkeypatch : List Byte := [0x50, 0xb8, 0x00, 0x00, 0x00, 0x00, 0xff, 0xe0]

/-- The bytes of `monkeypatch_template` with the given trampoline address; the field
has to be NULL before. -/
def fillTemplate (bytes : List Byte) (trampoline : Word) : Option (List Byte) :=
  if (bytes.drop 2).take 4 = [0, 0, 0, 0] then
    some (bytes.take 2 ++ bytesOf trampoline ++ bytes.drop 6)
  else none

def monkeyPatch (trampoline : Word) (orig : List Byte) : Option (List Byte) :=
  (fillTemplate vsyscallMonkeypatch trampoline).map fun bytes =>
    bytes ++ orig.drop bytes.length

def vsyscallHookTrampoline (vsyscallHook : Word) : Code :=
  [.instr (.pop .eax),
    .instr (.push (.reg .ebp)),
    .instr (.push (.reg .edi)),
    .instr (.push (.reg .esi)),
    .instr (.push (.reg .edx)),
    .instr (.push (.reg .ecx)),
    .instr (.push (.reg .ebx)),
    .instr (.push (.reg .eax)),
    .instr (.mov .ecx (.reg .esp)),
    .instr (.push (.reg .ecx)),
    .instr (.mov .eax (.imm vsyscallHook)),
    .callReg .eax,
    .instr (.alu .add .esp (.imm 8)),
    .instr (.pop .ebx),
    .instr (.pop .ecx),
    .instr (.pop .edx),
    .instr (.pop .esi),
    .instr (.pop .edi),
    .instr (.pop .ebp),
    .ret]

structure SyscallInfo where
  no : Word
  args : List Word
  deriving DecidableEq, Repr

def SyscallInfo.ofMemory (mem : Memory) (call : Word) : SyscallInfo :=
  { no := mem.read call
    args := (List.range 6).map fun i => mem.read (call + BitVec.ofNat 32 (4 + 4 * i)) }

def SyscallInfo.ofRegs (regs : Reg → Word) : SyscallInfo :=
  { no := regs .eax
    args := [Reg.ebx, .ecx, .edx, .esi, .edi, .ebp].map regs }

/-- What the kernel sees: `int $0x80` passes all arguments in registers, `sysenter` the
last one on the stack at `%ebp`. -/
def kernelView (m : Machine) : Gate → SyscallInfo
  | .int _ => .ofRegs m.regs
  | .sysenter => .ofRegs (Function.update m.regs .ebp (m.mem.read (m.regs .ebp)))

/-- `vsyscall_hook` at its `int $0x80`, entered with the machine `m`: the registers that
the constraints of the `asm` name.  None of them names `%ebp`. -/
def vsyscallHookTrap (m : Machine) (ebp : Word) : Machine :=
  let call := SyscallInfo.ofMemory m.mem (m.mem.read (m.regs .esp + 4))
  { m with
    regs := fun
      | .eax => call.no
      | .ebx => call.args.getD 0 0
      | .ecx => call.args.getD 1 0
      | .edx => call.args.getD 2 0
      | .esi => call.args.getD 3 0
      | .edi => call.args.getD 4 0
      | .ebp => ebp
      | .esp => m.regs .esp }

/-- How `vsyscall_hook` begins as the Makefile has it compiled, with `-O0`. -/
def vsyscallHookPrologue : List Instr := [.push (.reg .ebp), .mov .ebp (.reg .esp)]

/-- What `vsyscall_hook` then has in `%ebp` up to its end. -/
def framePointer (m : Machine) : Word := (Instr.execAll vsyscallHookPrologue m).regs .ebp

theorem framePointer_eq (m : Machine) : framePointer m = m.regs .esp - 4 := rfl

theorem SyscallInfo.ofMemory_of_words {mem : Memory} {call no : Word} {args : List Word}
    (rest : List Word) (hlength : args.length = 6) (holds : Words mem call (no :: (args ++ rest))) :
    ofMemory mem call = ⟨no, args⟩ := by
  match args, hlength with
  | [a0, a1, a2, a3, a4, a5], _ =>
      obtain ⟨hno, h0, h1, h2, h3, h4, h5, _⟩ := holds
      simp only [BitVec.add_assoc] at h0 h1 h2 h3 h4 h5
      simp only [ofMemory, SyscallInfo.mk.injEq]
      exact ⟨hno, congrArg₂ _ h0 (congrArg₂ _ h1 (congrArg₂ _ h2 (congrArg₂ _ h3
        (congrArg₂ _ h4 (congrArg₂ _ h5 rfl)))))⟩

def vsyscallCode : Code :=
  [.instr (.push (.reg .ecx)), .instr (.push (.reg .edx)), .instr (.push (.reg .ebp)),
    .instr (.mov .ebp (.reg .esp)), .trap .sysenter, .instr .nop, .instr .nop, .instr .nop,
    .instr .nop, .instr .nop, .instr .nop, .instr .nop, .trap (.int 0x80),
    .instr (.pop .ebp), .instr (.pop .edx), .instr (.pop .ecx), .ret]

theorem decode_vsyscallImpl : decode 20 vsyscallImpl = some vsyscallCode := by decide

/-- The patched code: the jump to the trampoline and what it leaves of the original. -/
def patchedCode (trampoline : Word) : Code :=
  [.instr (.push (.reg .eax)), .instr (.mov .eax (.imm trampoline)), .jmpReg .eax] ++
    vsyscallCode.drop 6

theorem decode_monkeyPatch (trampoline : Word) :
    (monkeyPatch trampoline vsyscallImpl).bind (decode 20) =
      some (patchedCode trampoline) := by
  have hdecode : (monkeyPatch trampoline vsyscallImpl).bind (decode 20) =
      some (patchedCode (ofBytes (byteOf trampoline 0) (byteOf trampoline 1)
        (byteOf trampoline 2) (byteOf trampoline 3))) := rfl
  rwa [ofBytes_byteOf] at hdecode

section Trampoline

variable (p : Program Empty) (m : Machine) (hook trampoline : Word)

def jumped : Machine := (m.push (m.regs .eax)).set .eax trampoline

theorem reaches_trampoline :
    p.Reaches ⟨.code (patchedCode trampoline), m⟩
      ⟨.address trampoline, jumped m trampoline⟩ := by
  apply Program.Reaches.instrs [.push (.reg .eax), .mov .eax (.imm trampoline)]
  refine .head ?_ .refl
  simp [Program.step, Program.stepCode, Instr.execAll, Instr.exec, Machine.touch,
    Machine.value, jumped]

def buildInfo : List Instr :=
  [.pop .eax] ++ pushes [.ebp, .edi, .esi, .edx, .ecx, .ebx, .eax]

def passInfo : List Instr := [.mov .ecx (.reg .esp), .push (.reg .ecx), .mov .eax (.imm hook)]

def infoWords : List Word :=
  m.regs .eax :: ([Reg.ebx, .ecx, .edx, .esi, .edi, .ebp].map m.regs ++
    [m.mem.read (m.regs .esp)])

/-- The first instruction of the trampoline undoes what the patch did to registers. -/
theorem regs_pop_jumped :
    ((Instr.pop .eax).exec (jumped m trampoline)).regs = m.regs := by
  funext r
  cases r with
  | eax => exact read_write _ _ _
  | esp => exact BitVec.sub_add_cancel _ _
  | ecx | edx | ebx | ebp | esi | edi => rfl

structure Saved (m' : Machine) : Prop where
  regs : ∀ r, r ≠ .esp → m'.regs r = m.regs r
  esp : m'.regs .esp = m.regs .esp - 28
  stack : m'.Stack (infoWords m)
  mem : SameAbove (m.regs .esp) 28 m.mem m'.mem

theorem saved_buildInfo : Saved m (Instr.execAll buildInfo (jumped m trampoline)) := by
  rw [buildInfo, Instr.execAll_append]
  have hregs : (Instr.execAll [.pop .eax] (jumped m trampoline)).regs = m.regs :=
    regs_pop_jumped m trampoline
  have hmem : SameAbove (m.regs .esp) 4 m.mem
      (Instr.execAll [.pop .eax] (jumped m trampoline)).mem :=
    sameAbove_write m.mem (m.regs .esp) (m.regs .eax)
  generalize Instr.execAll [.pop .eax] (jumped m trampoline) = m' at hregs hmem
  have hstack : m'.Stack [m.mem.read (m.regs .esp)] := by
    have hreturn : Words m.mem (m.regs .esp) [m.mem.read (m.regs .esp)] := ⟨rfl, trivial⟩
    rw [Machine.Stack, hregs]
    exact hreturn.of_sameAbove hmem (by simp)
  have pushed := pushed [.ebp, .edi, .esi, .edx, .ecx, .ebx, .eax] (by decide) hstack
    (by simp)
  generalize Instr.execAll (pushes _) m' = m'' at pushed
  constructor
  · exact fun r hr => (pushed.regs r hr).trans (congrFun hregs r)
  · exact hregs ▸ pushed.esp
  · have hsaved := pushed.stack
    rw [hregs] at hsaved
    exact hsaved
  · exact (hmem.mono (by decide)).trans (hregs ▸ pushed.mem)

structure Calling (m' : Machine) : Prop where
  eax : m'.regs .eax = hook
  saved : ∀ r ∈ [Reg.ebx, .esi, .edi, .ebp], m'.regs r = m.regs r
  esp : m'.regs .esp = m.regs .esp - 32
  stack : m'.Stack ((m.regs .esp - 28) :: infoWords m)
  mem : SameAbove (m.regs .esp) 32 m.mem m'.mem

theorem Saved.calling {m' : Machine} (saved : Saved m m') :
    Calling m hook (Instr.execAll (passInfo hook) m') := by
  have heq : Instr.execAll (passInfo hook) m' =
      ((m'.set .ecx (m'.regs .esp)).push (m'.regs .esp)).set .eax hook := rfl
  rw [heq]
  have hpush : SameAbove (m.regs .esp - BitVec.ofNat 32 28) 4 m'.mem
      ((m'.set .ecx (m'.regs .esp)).push (m'.regs .esp)).mem := by
    have hsame := (m'.set .ecx (m'.regs .esp)).sameAbove_push (v := m'.regs .esp)
    simp only [Machine.set_regs, Machine.set_mem, ne_eq, reduceCtorEq, not_false_eq_true,
      Function.update_of_ne, saved.esp] at hsame ⊢
    exact hsame
  constructor
  · rw [Machine.set_regs, Function.update_self]
  · intro r hr
    have hne : r ≠ .eax ∧ r ≠ .esp ∧ r ≠ .ecx := by
      simp only [List.mem_cons, List.not_mem_nil, or_false] at hr
      rcases hr with rfl | rfl | rfl | rfl <;> decide
    simp [Machine.push_regs, hne, saved.regs r hne.2.1]
  · simp only [Machine.set_regs, Machine.push_regs, ne_eq, reduceCtorEq, not_false_eq_true,
      Function.update_of_ne, Function.update_self, saved.esp]
    bv_omega
  · have hstack : (m'.set .ecx (m'.regs .esp)).Stack (infoWords m) := saved.stack
    have hcall := hstack.push (v := m'.regs .esp) (by simp [infoWords])
    rw [← saved.esp]
    exact hcall
  · exact (saved.mem.mono (by decide)).trans (hpush.lower 28 (by decide))

def restore : List Instr :=
  [.alu .add .esp (.imm 8)] ++ pops [.ebx, .ecx, .edx, .esi, .edi, .ebp]

def afterCall : Code := restore.map .instr ++ [.ret]

theorem vsyscallHookTrampoline_eq :
    vsyscallHookTrampoline hook =
      buildInfo.map .instr ++ ((passInfo hook).map .instr ++ (.callReg .eax :: afterCall)) :=
  rfl

theorem reaches_call (m' : Machine) :
    p.Reaches ⟨.code (vsyscallHookTrampoline hook), m'⟩
      ⟨.code (.callReg .eax :: afterCall),
        Instr.execAll (passInfo hook) (Instr.execAll buildInfo m')⟩ := by
  rw [vsyscallHookTrampoline_eq]
  exact .instrs _ (.instrs _ .refl)

theorem calling_trampoline :
    Calling m hook
      (Instr.execAll (passInfo hook) (Instr.execAll buildInfo (jumped m trampoline))) :=
  (saved_buildInfo m trampoline).calling m hook

variable {p m hook trampoline}

structure Returned (m m' : Machine) (result : Word) (size : Nat) : Prop where
  eax : m'.regs .eax = result
  regs : ∀ r ∈ [Reg.ebx, .ecx, .edx, .esi, .edi, .ebp], m'.regs r = m.regs r
  esp : m'.regs .esp = m.regs .esp + 4
  mem : SameAbove (m.regs .esp) size m.mem m'.mem

theorem Calling.entry {m' : Machine} (calling : Calling m hook m') (returnAddress : Word) :
    (m'.push returnAddress).regs .esp = m.regs .esp - 36 ∧
      Words (m'.push returnAddress).mem (m.regs .esp - 28) (infoWords m) ∧
      SameAbove (m.regs .esp) 36 m.mem (m'.push returnAddress).mem := by
  have hesp : (m'.push returnAddress).regs .esp = m.regs .esp - 36 := by
    rw [Machine.push_regs, Function.update_self, calling.esp]
    bv_omega
  refine ⟨hesp, ?_, ?_⟩
  · obtain ⟨_, _, hinfo⟩ := calling.stack.push (v := returnAddress) (by simp [infoWords])
    have haddress : (m'.push returnAddress).regs .esp + 4 + 4 = m.regs .esp - 28 := by
      rw [hesp]
      bv_omega
    rwa [haddress] at hinfo
  · have hpush := m'.sameAbove_push (v := returnAddress)
    rw [calling.esp] at hpush
    exact (calling.mem.mono (by decide)).trans (SameAbove.lower 32 (by decide) hpush)

theorem Calling.info {m' : Machine} (calling : Calling m hook m') (returnAddress : Word) :
    SyscallInfo.ofMemory (m'.push returnAddress).mem
      ((m'.push returnAddress).mem.read ((m'.push returnAddress).regs .esp + 4)) =
        .ofRegs m.regs := by
  obtain ⟨_, hpointer, _⟩ := calling.stack.push (v := returnAddress) (by simp [infoWords])
  rw [hpointer]
  exact SyscallInfo.ofMemory_of_words [m.mem.read (m.regs .esp)] rfl
    (calling.entry returnAddress).2.1

structure Restored (m m' m'' : Machine) : Prop where
  stack : m''.Stack [m.mem.read (m.regs .esp)]
  esp : m''.regs .esp = m.regs .esp
  regs : ∀ r ∈ [Reg.ebx, .ecx, .edx, .esi, .edi, .ebp], m''.regs r = m.regs r
  eax : m''.regs .eax = m'.regs .eax
  mem : m''.mem = m'.mem

theorem restored {m' : Machine} (hesp : m'.regs .esp = m.regs .esp - 32)
    (hinfo : Words m'.mem (m.regs .esp - 28) (infoWords m)) :
    Restored m m' (Instr.execAll restore m') := by
  rw [restore, Instr.execAll_append]
  obtain ⟨m₁, hm₁⟩ : ∃ m₁, m₁ = Instr.execAll [.alu .add .esp (.imm 8)] m' := ⟨_, rfl⟩
  have hesp₁ : m₁.regs .esp = m.regs .esp - 28 + 4 := by
    have hadd : m₁.regs .esp = m'.regs .esp + 8 := hm₁ ▸ rfl
    rw [hadd, hesp]
    bv_omega
  have hstack₁ : m₁.Stack ([Reg.ebx, .ecx, .edx, .esi, .edi, .ebp].map m.regs ++
      [m.mem.read (m.regs .esp)]) := by
    rw [Machine.Stack, hesp₁]
    exact hm₁ ▸ hinfo.2
  have popped := popped [.ebx, .ecx, .edx, .esi, .edi, .ebp] (by decide) (by decide)
    (by simp) (by decide) hstack₁
  rw [← hm₁]
  constructor
  · exact popped.stack
  · rw [popped.esp, hesp₁]
    simp only [List.length_cons, List.length_nil]
    bv_omega
  · exact List.map_inj_left.mp popped.restored
  · rw [popped.regs .eax (by decide) (by decide), hm₁]
    rfl
  · rw [popped.mem, hm₁]
    rfl

theorem Calling.returned {m' : Machine} {depth : Nat} (calling : Calling m hook m')
    (cdecl : Cdecl (p.callee hook) 1 depth) (hdepth : depth + 36 ≤ 2 ^ 32) :
    ∃ m'', p.Reaches ⟨.code (.callReg .eax :: afterCall), m'⟩
        ⟨.address (m.mem.read (m.regs .esp)), m''⟩ ∧
      Returned m m'' ((p.callee hook (m'.push (p.address afterCall))).regs .eax)
        (36 + depth) := by
  obtain ⟨hentry, hinfo, hmem⟩ := calling.entry (p.address afterCall)
  have hstep : p.step ⟨.code (.callReg .eax :: afterCall), m'⟩ = some ⟨.code afterCall,
      p.callee hook (m'.push (p.address afterCall))⟩ := by
    simp [Program.step, Program.stepCode, calling.eax]
  generalize m'.push (p.address afterCall) = entered at hentry hinfo hmem hstep ⊢
  have hcallee := cdecl.mem entered
  rw [hentry, show m.regs .esp - 36 + BitVec.ofNat 32 (4 + 4 * 1) = m.regs .esp - 28 by
    bv_omega] at hcallee
  have restored := restored
    (by rw [cdecl.esp entered, hentry]; bv_omega)
    (hinfo.of_sameAbove hcallee (by simp [infoWords]; omega))
  refine ⟨_, .head hstep (.instrs restore restored.stack.reaches_ret), ?_⟩
  constructor
  · rw [Machine.pop_regs, Function.update_of_ne (by decide), restored.eax]
  · intro r hr
    have hesp : r ≠ .esp := by
      rintro rfl
      simp at hr
    rw [Machine.pop_regs, Function.update_of_ne hesp, restored.regs r hr]
  · rw [Machine.pop_regs, Function.update_self, restored.esp]
  · have hsame : SameAbove (m.regs .esp) (36 + depth) m.mem (p.callee hook entered).mem :=
      (hmem.mono (by omega)).trans ((hcallee.lower 28 (by omega)).mono (by omega))
    exact restored.mem ▸ hsame

end Trampoline

section Patched

variable (p : Program Empty) (m : Machine) (hook trampoline : Word)

/-- The patched code reaches the trampoline, which passes the hook a pointer to the
arguments of the syscall and returns to the caller with all registers restored but the
result.  The memory changes only below the stack pointer of the caller, as far as the
hook's stack goes. -/
theorem patched_vsyscall_preserves_caller {depth : Nat}
    (cdecl : Cdecl (p.callee hook) 1 depth) (hdepth : depth + 36 ≤ 2 ^ 32) :
    ∃ code m₁ m₂ entered m₃,
      (monkeyPatch trampoline vsyscallImpl).bind (decode 20) = some code ∧
      p.Reaches ⟨.code code, m⟩ ⟨.address trampoline, m₁⟩ ∧
      p.Reaches ⟨.code (vsyscallHookTrampoline hook), m₁⟩
        ⟨.code (.callReg .eax :: afterCall), m₂⟩ ∧
      m₂.regs .eax = hook ∧ entered = m₂.push (p.address afterCall) ∧
      SyscallInfo.ofMemory entered.mem (entered.mem.read (entered.regs .esp + 4)) =
        .ofRegs m.regs ∧
      p.Reaches ⟨.code (.callReg .eax :: afterCall), m₂⟩
        ⟨.address (m.mem.read (m.regs .esp)), m₃⟩ ∧
      Returned m m₃ ((p.callee hook entered).regs .eax) (36 + depth) ∧
      (36 + depth ≤ (m.regs .esp).toNat → ∀ x, m.regs .esp ≤ x → m₃.mem x = m.mem x) := by
  have calling := calling_trampoline m hook trampoline
  obtain ⟨m₃, hreturn, returned⟩ := calling.returned cdecl hdepth
  exact ⟨patchedCode trampoline, _, _, _, m₃, decode_monkeyPatch trampoline,
    reaches_trampoline p m trampoline, reaches_call p hook _, calling.eax, rfl,
    calling.info _, hreturn, returned, fun hsize _ => returned.mem.eq_of_le hsize⟩

def sampleProgram : Program Empty :=
  { text := [], address := fun _ => 0x8048000, callee := fun _ m => m.pop.2.set .eax 42 }

def sampleCaller : Machine :=
  { regs := fun
      | .eax => 192
      | .ebx => 1
      | .ecx => 2
      | .edx => 3
      | .esi => 4
      | .edi => 5
      | .ebp => 6
      | .esp => 0xbffff000
    flags := { carry := false, zero := false, parity := false }
    mem := fun _ => 0
    reads := [] }

theorem cdecl_sampleProgram : Cdecl (sampleProgram.callee 0x8048500) 1 0 :=
  ⟨fun _ => rfl, fun m r hr => by
    simp only [List.mem_cons, List.not_mem_nil, or_false] at hr
    rcases hr with rfl | rfl | rfl | rfl <;> rfl, fun _ _ _ => rfl⟩

theorem patched_vsyscall_preserves_caller_sample :
    ∃ m₂ m₃, sampleProgram.Reaches ⟨.code (.callReg .eax :: afterCall), m₂⟩
        ⟨.address 0, m₃⟩ ∧
      m₃.regs .eax = 42 ∧ m₃.regs .ebp = 6 ∧ m₃.regs .esp = 0xbffff004 := by
  obtain ⟨_, _, m₂, entered, m₃, _, _, _, _, _, _, hreturn, returned, _⟩ :=
    patched_vsyscall_preserves_caller sampleProgram sampleCaller 0x8048500 0x8048600
      cdecl_sampleProgram (by decide)
  exact ⟨m₂, m₃, hreturn, returned.eax, returned.regs .ebp (by decide), returned.esp⟩

/-! The two ways into the kernel. -/

def SeenThroughImpl (info : SyscallInfo) : Prop :=
  ∃ rest m', p.Reaches ⟨.code vsyscallCode, m⟩ ⟨.kernel .sysenter rest, m'⟩ ∧
    kernelView m' .sysenter = info

/-- The kernel sees `info` when the patched code is executed.  `hookEbp` is what the
compiled hook has in `%ebp` at its `int $0x80`. -/
def SeenThroughPatch (hookEbp : Machine → Word) (info : SyscallInfo) : Prop :=
  ∃ m₁ m₂ entered, p.Reaches ⟨.code (patchedCode trampoline), m⟩ ⟨.address trampoline, m₁⟩ ∧
    p.Reaches ⟨.code (vsyscallHookTrampoline hook), m₁⟩
      ⟨.code (.callReg .eax :: afterCall), m₂⟩ ∧
    m₂.regs .eax = hook ∧ entered = m₂.push (p.address afterCall) ∧
    kernelView (vsyscallHookTrap entered (hookEbp entered)) (.int 0x80) = info

theorem SyscallInfo.ofRegs_congr {regs regs' : Reg → Word}
    (h : ∀ r, r ≠ .esp → regs r = regs' r) : ofRegs regs = ofRegs regs' := by
  simp [ofRegs, h]

theorem SyscallInfo.ofRegs_update_ebp (regs : Reg → Word) (ebp : Word) :
    ofRegs (Function.update regs .ebp ebp) = ofRegs regs ↔ ebp = regs .ebp := by
  constructor
  · intro heq
    simpa [ofRegs] using congrArg args heq
  · rintro rfl
    rw [Function.update_eq_self]

theorem seenThroughImpl_iff (info : SyscallInfo) :
    SeenThroughImpl p m info ↔ info = .ofRegs m.regs := by
  have hstack : m.Stack [] := trivial
  have pushed := pushed [.ecx, .edx, .ebp] (by decide) hstack (by simp)
  have reaches : p.Reaches ⟨.code vsyscallCode, m⟩ ⟨.kernel .sysenter (vsyscallCode.drop 5),
      Instr.execAll (pushes [.ecx, .edx, .ebp] ++ [.mov .ebp (.reg .esp)]) m⟩ :=
    .instrs (pushes [.ecx, .edx, .ebp] ++ [.mov .ebp (.reg .esp)]) (.head rfl .refl)
  have hview : kernelView (Instr.execAll
      (pushes [.ecx, .edx, .ebp] ++ [.mov .ebp (.reg .esp)]) m) .sysenter =
        .ofRegs m.regs := by
    rw [Instr.execAll_append]
    generalize Instr.execAll (pushes [.ecx, .edx, .ebp]) m = m' at pushed
    apply SyscallInfo.ofRegs_congr
    intro r hr
    by_cases hebp : r = .ebp
    · subst hebp
      rw [Function.update_self]
      exact pushed.stack.1
    · rw [Function.update_of_ne hebp]
      exact (Function.update_of_ne hebp _ _).trans (pushed.regs r hr)
  constructor
  · rintro ⟨rest, m', reaches', rfl⟩
    cases reaches'.unique reaches rfl
    exact hview
  · rintro rfl
    exact ⟨_, _, reaches, hview⟩

def enteredHook : Machine :=
  (Instr.execAll (passInfo hook) (Instr.execAll buildInfo (jumped m trampoline))).push
    (p.address afterCall)

theorem framePointer_enteredHook :
    framePointer (enteredHook p m hook trampoline) = m.regs .esp - 40 := by
  rw [framePointer_eq, enteredHook, ((calling_trampoline m hook trampoline).entry _).1]
  bv_omega

theorem kernelView_enteredHook (ebp : Word) :
    kernelView (vsyscallHookTrap (enteredHook p m hook trampoline) ebp) (.int 0x80) =
      .ofRegs (Function.update m.regs .ebp ebp) := by
  apply SyscallInfo.ofRegs_congr
  intro r hr
  simp only [vsyscallHookTrap, enteredHook, (calling_trampoline m hook trampoline).info]
  cases r with
  | esp => exact absurd rfl hr
  | eax | ecx | edx | ebx | ebp | esi | edi => rfl

theorem seenThroughPatch_iff (hookEbp : Machine → Word) (info : SyscallInfo) :
    SeenThroughPatch p m hook trampoline hookEbp info ↔
      info = .ofRegs (Function.update m.regs .ebp
        (hookEbp (enteredHook p m hook trampoline))) := by
  constructor
  · rintro ⟨m₁, m₂, _, hjump, hcall, _, rfl, rfl⟩
    cases hjump.unique (reaches_trampoline p m trampoline) rfl
    cases hcall.unique (reaches_call p hook _) rfl
    exact kernelView_enteredHook p m hook trampoline _
  · rintro rfl
    exact ⟨_, _, _, reaches_trampoline p m trampoline, reaches_call p hook _,
      (calling_trampoline m hook trampoline).eax, rfl,
      kernelView_enteredHook p m hook trampoline _⟩

/-- Compiled with a frame pointer, the hook is transparent to the calls whose sixth
argument is the address of its frame.  Over all the values of `%ebp` that the constraints
allow it is transparent to none. -/
theorem patched_vsyscall_transparent_iff :
    decode 20 vsyscallImpl = some vsyscallCode ∧
    (monkeyPatch trampoline vsyscallImpl).bind (decode 20) =
      some (patchedCode trampoline) ∧
    (∃ info, SeenThroughImpl p m info) ∧
    (∀ hookEbp, ∃ info, SeenThroughPatch p m hook trampoline hookEbp info) ∧
    ((∀ info, SeenThroughPatch p m hook trampoline framePointer info ↔
        SeenThroughImpl p m info) ↔
      m.regs .ebp = m.regs .esp - 40) ∧
    ¬ ∀ hookEbp info, SeenThroughPatch p m hook trampoline hookEbp info ↔
      SeenThroughImpl p m info := by
  refine ⟨decode_vsyscallImpl, decode_monkeyPatch trampoline,
    ⟨_, (seenThroughImpl_iff p m _).mpr rfl⟩,
    fun hookEbp => ⟨_, (seenThroughPatch_iff p m hook trampoline hookEbp _).mpr rfl⟩, ?_, ?_⟩
  · simp only [seenThroughPatch_iff, seenThroughImpl_iff, framePointer_enteredHook]
    constructor
    · intro hsame
      exact ((SyscallInfo.ofRegs_update_ebp _ _).mp ((hsame _).mp rfl)).symm
    · intro hebp info
      rw [(SyscallInfo.ofRegs_update_ebp _ _).mpr hebp.symm]
  · intro hsame
    -- a hook that has something else there
    have hother := (hsame (fun _ => m.regs .ebp + 1) _).mp
      ((seenThroughPatch_iff p m hook trampoline _ _).mpr rfl)
    rw [seenThroughImpl_iff, SyscallInfo.ofRegs_update_ebp] at hother
    bv_omega

theorem patched_vsyscall_drops_sixth_argument :
    ∃ original patched, SeenThroughImpl sampleProgram sampleCaller original ∧
      SeenThroughPatch sampleProgram sampleCaller 0x8048500 0x8048600 framePointer patched ∧
      original.args = [1, 2, 3, 4, 5, 6] ∧ patched.args = [1, 2, 3, 4, 5, 0xbfffefd8] := by
  refine ⟨_, _, (seenThroughImpl_iff sampleProgram sampleCaller _).mpr rfl,
    (seenThroughPatch_iff sampleProgram sampleCaller 0x8048500 0x8048600 _ _).mpr rfl,
    rfl, ?_⟩
  rw [framePointer_enteredHook]
  decide

end Patched

end RrWorkbench.VdsoMonkeypatch
