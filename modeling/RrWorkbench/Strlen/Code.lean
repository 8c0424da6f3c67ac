import RrWorkbench.X86.Stack

namespace RrWorkbench.Strlen

open RrWorkbench.X86

/-! `libc-sysdeps-i386-i586-strlen.S` as it is configured in the file: `BB_INST` and
`ZERO_TEST_INST` are on, `LABEL_INST` and `UNROLL_INST` are off, and `ENTER`, `LEAVE` and
the bounds checks are empty. -/

inductive Label
  | strlen | strlenInstr | strlenBeginImpl | l0 | l1 | l3 | l2 | done
  deriving DecidableEq, Repr

abbrev Code : Type := List (Stmt Label)

def magic : Word := 0xfefefeff

def instrument : Word := 0xdeadd00d

/-- `STR(%esp)`: there is only the return address below the argument. -/
def str : Operand := .mem .esp 4

def checkByte : Code := [.instr (.cmpb (.mem .eax 0) (.high .edx)), .jcc .e .l2]

/-- An unrolled iteration of the loop; the last one ends with another jump. -/
def iteration (last : Stmt Label) : Code :=
  [.instr (.mov .ecx (.mem .eax 0)),
    .instr (.alu .add .eax (.imm 4)),
    .instr (.alu .sub .edx (.reg .ecx)),
    .instr (.alu .add .ecx (.imm magic)),
    .instr (.dec .edx),
    .jcc .nc .l3,
    .instr (.alu .xor .edx (.reg .ecx)),
    .instr (.alu .and .edx (.imm (~~~magic))),
    last]

def text : List (Label × Code) :=
  [(.strlen,
      [.instr (.mov .eax str),
        .instr (.cmp .edi (.imm instrument)),
        .jcc .e .strlenInstr,
        .instr (.push (.reg .ebx)),
        .instr (.push (.reg .esi)),
        .instr (.push (.reg .edi)),
        .instr (.push (.reg .ebp)),
        .instr (.push (.imm 0)),
        .jmp .strlenBeginImpl]),
    (.strlenInstr,
      [.instr (.alu .xor .ebx (.reg .ebx)),
        .instr (.alu .xor .esi (.reg .esi)),
        .instr (.alu .xor .edi (.reg .edi)),
        .instr (.alu .xor .ebp (.reg .ebp)),
        .instr (.push (.imm 1))]),
    (.strlenBeginImpl,
      [.instr (.mov .edx (.imm 3)),
        .instr (.alu .and .edx (.reg .eax)),
        .jcc .e .l1,
        .jcc .p .l0] ++
      checkByte ++ [.instr (.inc .eax)] ++
      checkByte ++ [.instr (.inc .eax), .instr (.alu .xor .edx (.imm 2)), .jcc .e .l1]),
    (.l0, checkByte ++ [.instr (.inc .eax), .instr (.alu .xor .edx (.reg .edx))]),
    (.l1, iteration (.jcc .ne .l3) ++ iteration (.jcc .ne .l3) ++
      iteration (.jcc .ne .l3) ++ iteration (.jcc .e .l1)),
    (.l3,
      [.instr (.alu .sub .eax (.imm 4)),
        .instr (.alu .sub .ecx (.imm magic)),
        .instr (.inc .ebx),
        .instr (.cmpb (.low .ecx) (.imm 0)),
        .jcc .e .l2,
        .instr (.inc .esi),
        .instr (.inc .eax),
        .instr (.testb (.high .ecx) (.high .ecx)),
        .jcc .e .l2,
        .instr (.shr .ecx 16),
        .instr (.inc .eax),
        .instr (.inc .edi),
        .instr (.cmpb (.low .ecx) (.imm 0)),
        .jcc .e .l2,
        .instr (.inc .ebp),
        .instr (.inc .eax)]),
    (.l2,
      [.instr (.pop .edx),
        .instr (.cmp .edx (.imm 1)),
        .jcc .e .done,
        .instr (.pop .ebp),
        .instr (.pop .edi),
        .instr (.pop .esi),
        .instr (.pop .ebx)]),
    (.done, [.instr (.alu .sub .eax str), .ret])]

def program : Program Label := { text := text, address := fun _ => 0, callee := fun _ m => m }

/-- The memory holds a string of `length` bytes at `start`, which does not wrap around
the end of the memory. -/
structure StringAt (mem : Memory) (start : Word) (length : Nat) : Prop where
  nonzero : ∀ i < length, mem (start + BitVec.ofNat 32 i) ≠ 0
  nul : mem (start + BitVec.ofNat 32 length) = 0
  fits : start.toNat + length < 2 ^ 32

/-- The address is in an aligned word with a byte of the string in it, up to its NUL. -/
def InStringWord (start : Word) (length : Nat) (x : Word) : Prop :=
  ∃ i ≤ length, x.toNat / 4 = (start + BitVec.ofNat 32 i).toNat / 4

/-! The test for a zero byte: adding `magic` carries out of every byte unless the byte is
zero or no carry came in. -/

def passesTest (w : Word) : Bool :=
  AluOp.add.carry w magic && ((0 - w - 1) ^^^ (w + magic)) &&& ~~~magic == 0

theorem toNat_byteOf (w : Word) (i : Nat) :
    (byteOf w i).toNat = w.toNat / 2 ^ (8 * i) % 2 ^ 8 := by
  rw [byteOf, BitVec.extractLsb'_toNat, Nat.shiftRight_eq_div_pow]

theorem and_not_magic_eq_zero (v : Word) :
    v &&& ~~~magic = 0 ↔
      v.getLsbD 8 = false ∧ v.getLsbD 16 = false ∧ v.getLsbD 24 = false := by
  constructor
  · intro hzero
    have hbit : ∀ i, (~~~magic).getLsbD i = true → v.getLsbD i = false := by
      intro i hmask
      simpa [BitVec.getLsbD_and, hmask] using congrArg (fun u => u.getLsbD i) hzero
    exact ⟨hbit 8 (by decide), hbit 16 (by decide), hbit 24 (by decide)⟩
  · rintro ⟨h8, h16, h24⟩
    have hmask : ∀ i < 32, (~~~magic).getLsbD i = true → i = 8 ∨ i = 16 ∨ i = 24 := by decide
    apply BitVec.eq_of_getLsbD_eq
    intro i hi
    rw [BitVec.getLsbD_and]
    cases hbit : (~~~magic).getLsbD i with
    | false => simp
    | true =>
        rcases hmask i hi hbit with rfl | rfl | rfl
        · rw [h8]
          rfl
        · rw [h16]
          rfl
        · rw [h24]
          rfl

theorem getLsbD_eq_decide (v : Word) (i : Nat) :
    v.getLsbD i = decide (v.toNat / 2 ^ i % 2 = 1) := by
  rw [BitVec.getLsbD, Nat.testBit_eq_decide_div_mod_eq]

/-- A bit of the word is changed by the addition. -/
theorem getLsbD_changed (w : Word) {i : Nat} (hi : i < 32) :
    ((0 - w - 1) ^^^ (w + magic)).getLsbD i = false ↔
      (w.toNat + magic.toNat) % 2 ^ 32 / 2 ^ i % 2 ≠ w.toNat / 2 ^ i % 2 := by
  have hnot : 0 - w - 1 = ~~~w := by bv_omega
  rw [hnot, BitVec.getLsbD_xor, BitVec.getLsbD_not, getLsbD_eq_decide, getLsbD_eq_decide,
    BitVec.toNat_add]
  simp only [hi, decide_true, Bool.true_and]
  rcases Nat.mod_two_eq_zero_or_one (w.toNat / 2 ^ i) with hold | hold <;>
    simp [hold]

theorem passesTest_iff (w : Word) :
    passesTest w = true ↔ ∀ i < 4, byteOf w i ≠ 0 := by
  have hbytes : (∀ i < 4, byteOf w i ≠ 0) ↔
      w.toNat % 2 ^ 8 ≠ 0 ∧ w.toNat / 2 ^ 8 % 2 ^ 8 ≠ 0 ∧ w.toNat / 2 ^ 16 % 2 ^ 8 ≠ 0 ∧
        w.toNat / 2 ^ 24 % 2 ^ 8 ≠ 0 := by
    have hbyte : ∀ i, byteOf w i ≠ 0 ↔ w.toNat / 2 ^ (8 * i) % 2 ^ 8 ≠ 0 := by
      intro i
      rw [← toNat_byteOf, ne_eq, ← BitVec.toNat_inj]
      rfl
    constructor
    · intro hall
      exact ⟨by simpa using (hbyte 0).mp (hall 0 (by decide)),
        (hbyte 1).mp (hall 1 (by decide)), (hbyte 2).mp (hall 2 (by decide)),
        (hbyte 3).mp (hall 3 (by decide))⟩
    · rintro ⟨h0, h1, h2, h3⟩ i hi
      have hcases : i = 0 ∨ i = 1 ∨ i = 2 ∨ i = 3 := by omega
      rcases hcases with rfl | rfl | rfl | rfl
      · exact (hbyte 0).mpr (by simpa using h0)
      · exact (hbyte 1).mpr h1
      · exact (hbyte 2).mpr h2
      · exact (hbyte 3).mpr h3
  have hmagic : magic.toNat = 0xfefefeff := rfl
  have hw := w.isLt
  rw [hbytes, passesTest, Bool.and_eq_true, beq_iff_eq, and_not_magic_eq_zero,
    getLsbD_changed w (by decide), getLsbD_changed w (by decide),
    getLsbD_changed w (by decide), AluOp.carry, decide_eq_true_eq, hmagic]
  omega

end RrWorkbench.Strlen
