import RrWorkbench.VdsoMonkeypatch

namespace RrWorkbench.VdsoMonkeypatch

open RrWorkbench.X86 Memory

/-! `main` of `vdso_monkeypatch.c`: the code in memory is compared with the expected one
and then overwritten in place, byte by byte. -/

def vdsoStartAddr : Word := 0xb7fff000

def vsyscallOffset : Word := 0x414

def kernelVsyscallAddr : Word := vdsoStartAddr + vsyscallOffset

structure Mismatch where
  index : Nat
  expected : Byte
  actual : Byte
  deriving DecidableEq, Repr

def verifyFrom (mem : Memory) : Word → Nat → List Byte → Option Mismatch
  | _, _, [] => none
  | a, index, expected :: rest =>
      if expected ≠ mem a then some ⟨index, expected, mem a⟩
      else verifyFrom mem (a + 1) (index + 1) rest

def verifyVsyscallInsns (mem : Memory) (vsyscall : Word) : Option Mismatch :=
  verifyFrom mem vsyscall 0 vsyscallImpl

def writeBytes : Memory → Word → List Byte → Memory
  | mem, _, [] => mem
  | mem, a, b :: rest => writeBytes (Function.update mem a b) (a + 1) rest

inductive Outcome
  | fatal (mismatch : Mismatch)
  | assertionFailed
  /-- The vdso cannot be written. -/
  | segmentationFault
  | patched (mem : Memory)

/-- `mprotect` is whether the call succeeds; its result is printed and not looked at. -/
def main (mprotect : Bool) (trampoline : Word) (mem : Memory) : Outcome :=
  match verifyVsyscallInsns mem kernelVsyscallAddr with
  | some mismatch => .fatal mismatch
  | none =>
      match fillTemplate vsyscallMonkeypatch trampoline with
      | none => .assertionFailed
      | some bytes =>
          if mprotect then .patched (writeBytes mem kernelVsyscallAddr bytes)
          else .segmentationFault

/-! Bytes in memory. -/

def bytesAt (mem : Memory) : Word → Nat → List Byte
  | _, 0 => []
  | a, count + 1 => mem a :: bytesAt mem (a + 1) count

section Bytes

variable {mem mem' : Memory}

theorem bytesAt_add (a : Word) (first second : Nat) :
    bytesAt mem a (first + second) =
      bytesAt mem a first ++ bytesAt mem (a + BitVec.ofNat 32 first) second := by
  induction first generalizing a with
  | zero =>
      rw [Nat.zero_add]
      simp [bytesAt]
  | succ first ih =>
      have haddress : a + 1 + BitVec.ofNat 32 first = a + BitVec.ofNat 32 (first + 1) := by
        bv_omega
      rw [Nat.succ_add, bytesAt, bytesAt, ih, haddress, List.cons_append]

theorem bytesAt_congr (a : Word) (count : Nat)
    (h : ∀ i < count, mem' (a + BitVec.ofNat 32 i) = mem (a + BitVec.ofNat 32 i)) :
    bytesAt mem' a count = bytesAt mem a count := by
  induction count generalizing a with
  | zero => rfl
  | succ count ih =>
      have hfirst := h 0 (Nat.zero_lt_succ count)
      simp only [BitVec.add_zero] at hfirst
      rw [bytesAt, bytesAt, hfirst, ih (a + 1)]
      intro i hi
      have hnext := h (i + 1) (Nat.succ_lt_succ hi)
      have haddress : a + BitVec.ofNat 32 (i + 1) = a + 1 + BitVec.ofNat 32 i := by bv_omega
      rwa [haddress] at hnext

theorem writeBytes_outside (bytes : List Byte) {a x : Word}
    (hx : bytes.length ≤ (x - a).toNat) : writeBytes mem a bytes x = mem x := by
  induction bytes generalizing mem a with
  | nil => rfl
  | cons b rest ih =>
      rw [List.length_cons] at hx
      have hne : x ≠ a := by
        rintro rfl
        simp at hx
      rw [writeBytes, ih (by bv_omega), Function.update_of_ne hne]

theorem bytesAt_writeBytes (bytes : List Byte) (a : Word) (hlength : bytes.length ≤ 2 ^ 32) :
    bytesAt (writeBytes mem a bytes) a bytes.length = bytes := by
  induction bytes generalizing mem a with
  | nil => rfl
  | cons b rest ih =>
      rw [List.length_cons] at hlength
      have hfirst : writeBytes (Function.update mem a b) (a + 1) rest a = b := by
        rw [writeBytes_outside rest (by bv_omega), Function.update_self]
      rw [List.length_cons, bytesAt, writeBytes, hfirst, ih (a + 1) (by omega)]

end Bytes

/-! What `verify_vsyscall_insns` finds. -/

structure FirstMismatch (mem : Memory) (a : Word) (expected : List Byte)
    (mismatch : Mismatch) : Prop where
  before : bytesAt mem a mismatch.index = expected.take mismatch.index
  expected : expected[mismatch.index]? = some mismatch.expected
  actual : mem (a + BitVec.ofNat 32 mismatch.index) = mismatch.actual
  differs : mismatch.expected ≠ mismatch.actual

theorem verifyFrom_eq_none_iff (mem : Memory) (a : Word) (index : Nat)
    (expected : List Byte) :
    verifyFrom mem a index expected = none ↔ bytesAt mem a expected.length = expected := by
  induction expected generalizing a index with
  | nil => exact ⟨fun _ => rfl, fun _ => rfl⟩
  | cons b rest ih =>
      rw [verifyFrom, List.length_cons, bytesAt, List.cons.injEq]
      by_cases hb : b = mem a
      · rw [if_neg (not_not_intro hb), ih]
        exact ⟨fun h => ⟨hb.symm, h⟩, And.right⟩
      · rw [if_pos hb]
        exact ⟨nofun, fun h => absurd h.1.symm hb⟩

theorem firstMismatch_of_verifyFrom {mem : Memory} {a : Word} {index : Nat}
    {expected : List Byte} {mismatch : Mismatch}
    (h : verifyFrom mem a index expected = some mismatch) :
    ∃ i, mismatch.index = index + i ∧
      FirstMismatch mem a expected { mismatch with index := i } := by
  induction expected generalizing a index with
  | nil => contradiction
  | cons b rest ih =>
      rw [verifyFrom] at h
      by_cases hb : b = mem a
      · rw [if_neg (not_not_intro hb)] at h
        obtain ⟨i, hindex, hbefore, hexpected, hactual, hdiffers⟩ := ih h
        refine ⟨i + 1, by omega, ?_, ?_, ?_, hdiffers⟩
        · show bytesAt mem a (i + 1) = (b :: rest).take (i + 1)
          rw [bytesAt, List.take_succ_cons, hb]
          exact congrArg _ hbefore
        · exact hexpected
        · have haddress : a + BitVec.ofNat 32 (i + 1) = a + 1 + BitVec.ofNat 32 i := by
            bv_omega
          show mem (a + BitVec.ofNat 32 (i + 1)) = mismatch.actual
          rw [haddress]
          exact hactual
      · rw [if_pos hb] at h
        cases h
        refine ⟨0, rfl, rfl, rfl, ?_, hb⟩
        show mem (a + BitVec.ofNat 32 0) = mem a
        simp

/-! The code before and after the loop of `monkey_patch`. -/

def patchBytes (trampoline : Word) : List Byte :=
  [0x50, 0xb8] ++ bytesOf trampoline ++ [0xff, 0xe0]

theorem length_patchBytes (trampoline : Word) : (patchBytes trampoline).length = 8 := rfl

theorem length_bytesAt (mem : Memory) (a : Word) (count : Nat) :
    (bytesAt mem a count).length = count := by
  induction count generalizing a with
  | zero => rfl
  | succ count ih => rw [bytesAt, List.length_cons, ih]

theorem bytesAt_drop (mem : Memory) (a : Word) (first second : Nat) :
    bytesAt mem (a + BitVec.ofNat 32 first) second =
      (bytesAt mem a (first + second)).drop first := by
  have hlength := length_bytesAt mem a first
  rw [bytesAt_add, List.drop_append_of_le_length (by omega),
    List.drop_of_length_le (by omega), List.nil_append]

section Patch

variable {mem : Memory} (trampoline : Word)

theorem patch_outside {x : Word} (hx : 8 ≤ (x - kernelVsyscallAddr).toNat) :
    writeBytes mem kernelVsyscallAddr (patchBytes trampoline) x = mem x :=
  writeBytes_outside (patchBytes trampoline) hx

variable (himpl : bytesAt mem kernelVsyscallAddr 20 = vsyscallImpl)

include himpl

theorem bytesAt_behind {first second : Nat} (hfirst : 8 ≤ first)
    (hsum : first + second = 20) :
    bytesAt (writeBytes mem kernelVsyscallAddr (patchBytes trampoline))
      (kernelVsyscallAddr + BitVec.ofNat 32 first) second = vsyscallImpl.drop first := by
  have hkept : bytesAt (writeBytes mem kernelVsyscallAddr (patchBytes trampoline))
      (kernelVsyscallAddr + BitVec.ofNat 32 first) second =
        bytesAt mem (kernelVsyscallAddr + BitVec.ofNat 32 first) second := by
    apply bytesAt_congr
    intro i hi
    apply patch_outside
    generalize kernelVsyscallAddr = a
    bv_omega
  rw [hkept, bytesAt_drop, hsum, himpl]

theorem decode_patched :
    decode 20 (bytesAt (writeBytes mem kernelVsyscallAddr (patchBytes trampoline))
      kernelVsyscallAddr 20) = some (patchedCode trampoline) := by
  have hpatch : bytesAt (writeBytes mem kernelVsyscallAddr (patchBytes trampoline))
      kernelVsyscallAddr (patchBytes trampoline).length = patchBytes trampoline :=
    bytesAt_writeBytes (patchBytes trampoline) kernelVsyscallAddr
      (by rw [length_patchBytes]; decide)
  rw [length_patchBytes] at hpatch
  rw [bytesAt_add kernelVsyscallAddr 8 12, hpatch,
    bytesAt_behind trampoline himpl (Nat.le_refl 8) rfl]
  exact decode_monkeyPatch trampoline

end Patch

/-! Calls that are in the kernel while the code is overwritten.  The kernel returns to
the byte behind `int $0x80`, or to that instruction to have the call made again. -/

def resumeCode : Code :=
  [.instr (.pop .ebp), .instr (.pop .edx), .instr (.pop .ecx), .ret]

/-- What the kernel keeps for a thread that went in with `m`: its stack, and the
registers but those that `sysexit` uses and the result. -/
structure KernelReturns (m after : Machine) (result : Word) : Prop where
  eax : after.regs .eax = result
  esp : after.regs .esp = m.regs .esp
  regs : ∀ r ∈ [Reg.ebx, .esi, .edi], after.regs r = m.regs r
  stack : ∀ words, words.length = 4 → m.Stack words → after.Stack words

structure BackInCaller (m m' : Machine) (result : Word) : Prop where
  eax : m'.regs .eax = result
  esp : m'.regs .esp = m.regs .esp + 4
  regs : ∀ r ∈ [Reg.ebx, .ecx, .edx, .esi, .edi, .ebp], m'.regs r = m.regs r

theorem exists_inKernel (p : Program Empty) (m : Machine) :
    ∃ m', p.Reaches ⟨.code vsyscallCode, m⟩ ⟨.kernel .sysenter (vsyscallCode.drop 5), m'⟩ ∧
      m'.Stack [m.regs .ebp, m.regs .edx, m.regs .ecx, m.mem.read (m.regs .esp)] ∧
      m'.regs .esp = m.regs .esp - 12 ∧
      ∀ r ∈ [Reg.ebx, .esi, .edi], m'.regs r = m.regs r := by
  have hstack : m.Stack [m.mem.read (m.regs .esp)] := ⟨rfl, trivial⟩
  have pushed := pushed [.ecx, .edx, .ebp] (by decide) hstack (by simp)
  refine ⟨_, .instrs (pushes [.ecx, .edx, .ebp] ++ [.mov .ebp (.reg .esp)])
    (.head rfl .refl), ?_⟩
  rw [Instr.execAll_append]
  generalize Instr.execAll (pushes [.ecx, .edx, .ebp]) m = m₁ at pushed
  have hesp : (Instr.execAll [.mov .ebp (.reg .esp)] m₁).regs .esp = m₁.regs .esp := by
    show Function.update m₁.regs .ebp (m₁.regs .esp) .esp = m₁.regs .esp
    exact Function.update_of_ne (by decide) _ _
  refine ⟨?_, ?_, ?_⟩
  · rw [Machine.Stack, hesp]
    exact pushed.stack
  · rw [hesp, pushed.esp]
    rfl
  · intro r hr
    have hne : r ≠ .ebp ∧ r ≠ .esp := by
      constructor
      · rintro rfl
        simp at hr
      · rintro rfl
        simp at hr
    exact (Function.update_of_ne hne.1 _ _).trans (pushed.regs r hne.2)

theorem reaches_caller (p : Program Empty) {m m' after : Machine} {result : Word}
    (stack : m'.Stack [m.regs .ebp, m.regs .edx, m.regs .ecx, m.mem.read (m.regs .esp)])
    (hesp : m'.regs .esp = m.regs .esp - 12)
    (hregs : ∀ r ∈ [Reg.ebx, .esi, .edi], m'.regs r = m.regs r)
    (returns : KernelReturns m' after result) :
    ∃ m'', p.Reaches ⟨.code resumeCode, after⟩ ⟨.address (m.mem.read (m.regs .esp)), m''⟩ ∧
      BackInCaller m m'' result ∧ m''.mem = after.mem := by
  have hafter : after.Stack ([m.regs .ebp, m.regs .edx, m.regs .ecx] ++
      [m.mem.read (m.regs .esp)]) := returns.stack _ rfl stack
  have popped := popped [.ebp, .edx, .ecx] (by decide) (by decide) rfl (by decide) hafter
  refine ⟨_, .instrs (pops [.ebp, .edx, .ecx]) popped.stack.reaches_ret, ⟨?_, ?_, ?_⟩,
    popped.mem⟩
  · rw [Machine.pop_regs, Function.update_of_ne (by decide),
      popped.regs .eax (by decide) (by decide), returns.eax]
  · rw [Machine.pop_regs, Function.update_self, popped.esp, returns.esp, hesp]
    simp only [List.length_cons, List.length_nil]
    bv_omega
  · have hrestored := List.map_inj_left.mp
      (show [Reg.ebp, .edx, .ecx].map _ = [Reg.ebp, .edx, .ecx].map m.regs from
        popped.restored)
    intro r hr
    have hne : r ≠ .esp := by
      rintro rfl
      simp at hr
    rw [Machine.pop_regs, Function.update_of_ne hne]
    by_cases hsaved : r ∈ [Reg.ebp, .edx, .ecx]
    · exact hrestored r hsaved
    · have hkept : r ∈ [Reg.ebx, .esi, .edi] := by
        cases r with
        | ebx | esi | edi => decide
        | eax | esp => simp at hr
        | ecx | edx | ebp => simp at hsaved
      rw [popped.regs r hne hsaved, returns.regs r hkept, hregs r hkept]

theorem firstMismatch_of_verifyVsyscallInsns {mem : Memory} {a : Word} {mismatch : Mismatch}
    (h : verifyVsyscallInsns mem a = some mismatch) :
    FirstMismatch mem a vsyscallImpl mismatch := by
  obtain ⟨i, hindex, first⟩ := firstMismatch_of_verifyFrom h
  rw [Nat.zero_add] at hindex
  subst hindex
  exact first

theorem main_of_expected (mprotect : Bool) (trampoline : Word) {mem : Memory}
    (h : bytesAt mem kernelVsyscallAddr 20 = vsyscallImpl) :
    main mprotect trampoline mem =
      if mprotect then .patched (writeBytes mem kernelVsyscallAddr (patchBytes trampoline))
      else .segmentationFault := by
  have hfound : verifyVsyscallInsns mem kernelVsyscallAddr = none :=
    (verifyFrom_eq_none_iff mem kernelVsyscallAddr 0 vsyscallImpl).mpr h
  rw [main, hfound]
  rfl

theorem main_of_unexpected (mprotect : Bool) (trampoline : Word) {mem : Memory}
    (h : bytesAt mem kernelVsyscallAddr 20 ≠ vsyscallImpl) :
    ∃ mismatch, main mprotect trampoline mem = .fatal mismatch ∧
      FirstMismatch mem kernelVsyscallAddr vsyscallImpl mismatch := by
  cases hfound : verifyVsyscallInsns mem kernelVsyscallAddr with
  | none => exact absurd ((verifyFrom_eq_none_iff mem _ 0 vsyscallImpl).mp hfound) h
  | some mismatch =>
      exact ⟨mismatch, by rw [main, hfound], firstMismatch_of_verifyVsyscallInsns hfound⟩

/-- `main` names the first byte that differs from the expected code, faults on code that
is as expected and cannot be written, and else overwrites it.  After it the calls go to the
trampoline, nothing else in memory has changed, and a thread that went into the kernel by
the old code comes back to its caller through what is left of it, also when its call is
made again. -/
theorem main_keeps_calls_in_kernel (mprotect : Bool) (trampoline : Word) (mem : Memory) :
    ((∃ mem', main mprotect trampoline mem = .patched mem') ↔
      mprotect = true ∧ bytesAt mem kernelVsyscallAddr 20 = vsyscallImpl) ∧
    (main mprotect trampoline mem = .segmentationFault ↔
      mprotect = false ∧ bytesAt mem kernelVsyscallAddr 20 = vsyscallImpl) ∧
    ((∃ mismatch, main mprotect trampoline mem = .fatal mismatch) ↔
      bytesAt mem kernelVsyscallAddr 20 ≠ vsyscallImpl) ∧
    (∀ mismatch, main mprotect trampoline mem = .fatal mismatch →
      FirstMismatch mem kernelVsyscallAddr vsyscallImpl mismatch) ∧
    main mprotect trampoline mem ≠ .assertionFailed ∧
    ∀ mem', main mprotect trampoline mem = .patched mem' →
      decode 20 (bytesAt mem' kernelVsyscallAddr 20) = some (patchedCode trampoline) ∧
      (∀ x, 8 ≤ (x - kernelVsyscallAddr).toNat → mem' x = mem x) ∧
      decode 20 (bytesAt mem' (kernelVsyscallAddr + 16) 4) = some resumeCode ∧
      decode 20 (bytesAt mem' (kernelVsyscallAddr + 14) 6) =
        some (.trap (.int 0x80) :: resumeCode) ∧
      ∀ (p : Program Empty) (m : Machine), ∃ m',
        p.Reaches ⟨.code vsyscallCode, m⟩ ⟨.kernel .sysenter (vsyscallCode.drop 5), m'⟩ ∧
        ∀ after result, KernelReturns m' after result → ∃ m'',
          p.Reaches ⟨.code resumeCode, after⟩
            ⟨.address (m.mem.read (m.regs .esp)), m''⟩ ∧
          BackInCaller m m'' result ∧ m''.mem = after.mem := by
  by_cases himpl : bytesAt mem kernelVsyscallAddr 20 = vsyscallImpl
  · rw [main_of_expected mprotect trampoline himpl]
    cases mprotect with
    | false =>
        exact ⟨⟨nofun, fun h => absurd h.1 Bool.false_ne_true⟩,
          ⟨fun _ => ⟨rfl, himpl⟩, fun _ => rfl⟩, ⟨nofun, fun h => absurd himpl h⟩,
          nofun, nofun, nofun⟩
    | true =>
        refine ⟨⟨fun _ => ⟨rfl, himpl⟩, fun _ => ⟨_, rfl⟩⟩,
          ⟨nofun, fun h => absurd h.1.symm Bool.false_ne_true⟩,
          ⟨nofun, fun h => absurd himpl h⟩, nofun, nofun, ?_⟩
        rintro _ ⟨⟩
        have hresume := bytesAt_behind trampoline himpl (show 8 ≤ 16 by decide)
          (show 16 + 4 = 20 from rfl)
        have hrestart := bytesAt_behind trampoline himpl (show 8 ≤ 14 by decide)
          (show 14 + 6 = 20 from rfl)
        refine ⟨decode_patched trampoline himpl, fun x => patch_outside trampoline,
          ?_, ?_, ?_⟩
        · exact (congrArg (decode 20) hresume).trans (by decide)
        · exact (congrArg (decode 20) hrestart).trans (by decide)
        · intro p m
          obtain ⟨m', hreaches, stack, hesp, hregs⟩ := exists_inKernel p m
          exact ⟨m', hreaches, fun after result returns =>
            reaches_caller p stack hesp hregs returns⟩
  · obtain ⟨mismatch, hmain, first⟩ := main_of_unexpected mprotect trampoline himpl
    rw [hmain]
    refine ⟨⟨nofun, fun h => absurd h.2 himpl⟩, ⟨nofun, fun h => absurd h.2 himpl⟩,
      ⟨fun _ => himpl, fun _ => ⟨mismatch, rfl⟩⟩, ?_, nofun, nofun⟩
    rintro _ ⟨⟩
    exact first

end RrWorkbench.VdsoMonkeypatch
