import RrWorkbench.Strlen.Code

namespace RrWorkbench.Strlen

open RrWorkbench.X86 Memory

/-! From the begin of the implementation to its exit: the bytes before the first aligned
word, the loop over the words, and the word that has the NUL. -/

structure Keeps (start : Word) (length : Nat) (m m' : Machine) : Prop where
  mem : m'.mem = m.mem
  esp : m'.regs .esp = m.regs .esp
  ebx : m'.regs .ebx = m.regs .ebx
  esi : m'.regs .esi = m.regs .esi
  edi : m'.regs .edi = m.regs .edi
  ebp : m'.regs .ebp = m.regs .ebp
  reads : ∀ access ∈ m'.reads,
    access ∈ m.reads ∨ access.1 = .eax ∧ InStringWord start length access.2

section Scan

variable {start : Word} {length : Nat} {m m' m'' : Machine} {rest : Code}

theorem Keeps.refl : Keeps start length m m :=
  ⟨rfl, rfl, rfl, rfl, rfl, rfl, fun _ hbefore => .inl hbefore⟩

theorem Keeps.trans (first : Keeps start length m m') (second : Keeps start length m' m'') :
    Keeps start length m m'' := by
  refine ⟨second.mem.trans first.mem, second.esp.trans first.esp, second.ebx.trans first.ebx,
    second.esi.trans first.esi, second.edi.trans first.edi, second.ebp.trans first.ebp, ?_⟩
  intro access haccess
  rcases second.reads access haccess with hbefore | hin
  · exact first.reads access hbefore
  · exact .inr hin

theorem StringAt.toNat_add {mem : Memory} (string : StringAt mem start length) {j : Nat}
    (hj : j ≤ length) : (start + BitVec.ofNat 32 j).toNat = start.toNat + j := by
  have hfits := string.fits
  rw [BitVec.toNat_add, BitVec.toNat_ofNat]
  omega

theorem StringAt.inStringWord {mem : Memory} (string : StringAt mem start length) {i j : Nat}
    (hj : j ≤ length) (haligned : (start.toNat + j) % 4 = 0) (hi : i < 4) :
    InStringWord start length (start + BitVec.ofNat 32 j + BitVec.ofNat 32 i) := by
  refine ⟨j, hj, ?_⟩
  have hfits := string.fits
  rw [BitVec.toNat_add, string.toNat_add hj, BitVec.toNat_ofNat]
  omega

/-! One byte. -/

inductive ByteChecked (start : Word) (length j : Nat) (m : Machine) (code rest : Code) : Prop
  | found (m' : Machine) (hj : j = length)
      (reaches : program.Reaches ⟨.code code, m⟩ ⟨.code (program.codeAt .l2), m'⟩)
      (keeps : Keeps start length m m')
      (eax : m'.regs .eax = start + BitVec.ofNat 32 length)
  | passed (m' : Machine) (hj : j < length)
      (reaches : program.Reaches ⟨.code code, m⟩ ⟨.code rest, m'⟩)
      (keeps : Keeps start length m m')
      (eax : m'.regs .eax = start + BitVec.ofNat 32 (j + 1))
      (edx : m'.regs .edx = m.regs .edx)

theorem byteChecked {mem : Memory} (string : StringAt mem start length) {j : Nat}
    (hmem : m.mem = mem) (heax : m.regs .eax = start + BitVec.ofNat 32 j) (hj : j ≤ length)
    (hdh : byteOf (m.regs .edx) 1 = 0) :
    ByteChecked start length j m (checkByte ++ .instr (.inc .eax) :: rest) rest := by
  subst hmem
  obtain ⟨m', hm'⟩ : ∃ m', m' = (Instr.cmpb (.mem .eax 0) (.high .edx)).exec m := ⟨_, rfl⟩
  have hregs : m'.regs = m.regs := by rw [hm']; rfl
  have hreads : m'.reads = m.reads ++ [(.eax, m.regs .eax + 0 + BitVec.ofNat 32 0)] := by
    rw [hm']; rfl
  have hzero : m'.flags.zero = (m.mem (start + BitVec.ofNat 32 j) == 0) := by
    rw [hm']
    simp only [Instr.exec, Machine.setFlags_flags, Flags.ofByte, Machine.byteValue, hdh, heax]
    simp
  have hkeeps : Keeps start length m m' := by
    refine ⟨by rw [hm']; rfl, by rw [hregs], by rw [hregs], by rw [hregs], by rw [hregs],
      by rw [hregs], ?_⟩
    intro access haccess
    rw [hreads, List.mem_append, List.mem_singleton] at haccess
    rcases haccess with hbefore | rfl
    · exact .inl hbefore
    · refine .inr ⟨rfl, j, hj, ?_⟩
      simp [heax]
  have hcompared : program.Reaches ⟨.code (checkByte ++ .instr (.inc .eax) :: rest), m⟩
      ⟨.code (.jcc .e .l2 :: .instr (.inc .eax) :: rest), m'⟩ := by
    rw [hm']
    exact .head rfl .refl
  rcases Nat.lt_or_ge j length with hlt | hge
  · have hfalse : m'.flags.zero = false := by
      rw [hzero, beq_eq_false_iff_ne]
      exact string.nonzero j hlt
    refine .passed ((Instr.inc .eax).exec m') hlt
      (hcompared.trans (.untaken hfalse (.head rfl .refl)))
      ⟨hkeeps.mem, hkeeps.esp, hkeeps.ebx, hkeeps.esi, hkeeps.edi, hkeeps.ebp, hkeeps.reads⟩
      ?_ (congrFun hregs .edx)
    have heax' : ((Instr.inc .eax).exec m').regs .eax = m'.regs .eax + 1 := by
      simp [Instr.exec]
    rw [heax', hregs, heax, BitVec.ofNat_add, BitVec.add_assoc]
    rfl
  · obtain rfl : j = length := Nat.le_antisymm hj hge
    have htrue : m'.flags.zero = true := by
      rw [hzero, beq_iff_eq]
      exact string.nul
    exact .found m' rfl (hcompared.trans (.taken htrue .refl)) hkeeps
      (by rw [hregs, heax])

/-! The bytes before the first aligned word. -/

def alignedFrom (start : Word) : Nat := (start.toNat + 3) / 4 * 4

inductive Approached (start : Word) (length : Nat) (m : Machine) (code : Code) : Prop
  | found (m' : Machine) (hbefore : start.toNat + length < alignedFrom start)
      (reaches : program.Reaches ⟨.code code, m⟩ ⟨.code (program.codeAt .l2), m'⟩)
      (keeps : Keeps start length m m')
      (eax : m'.regs .eax = start + BitVec.ofNat 32 length)
  | aligned (m' : Machine) (j : Nat) (haligned : start.toNat + j = alignedFrom start)
      (hj : j ≤ length)
      (reaches : program.Reaches ⟨.code code, m⟩ ⟨.code (program.codeAt .l1), m'⟩)
      (keeps : Keeps start length m m')
      (eax : m'.regs .eax = start + BitVec.ofNat 32 j)
      (edx : m'.regs .edx = 0)

theorem Approached.of_reaches {code code' : Code}
    (reaches : program.Reaches ⟨.code code, m⟩ ⟨.code code', m'⟩)
    (keeps : Keeps start length m m') (approached : Approached start length m' code') :
    Approached start length m code := by
  cases approached with
  | found m'' hbefore reaches' keeps' eax =>
      exact .found m'' hbefore (reaches.trans reaches') (keeps.trans keeps') eax
  | aligned m'' j haligned hj reaches' keeps' eax edx =>
      exact .aligned m'' j haligned hj (reaches.trans reaches') (keeps.trans keeps') eax edx

theorem approached_l0 {j : Nat} (string : StringAt m.mem start length)
    (heax : m.regs .eax = start + BitVec.ofNat 32 j) (hj : j ≤ length)
    (hdh : byteOf (m.regs .edx) 1 = 0) (hlast : start.toNat + j + 1 = alignedFrom start) :
    Approached start length m (program.codeAt .l0) := by
  have checked : ByteChecked start length j m (program.codeAt .l0)
      (.instr (.alu .xor .edx (.reg .edx)) :: program.codeAt .l1) :=
    byteChecked string rfl heax hj hdh
  cases checked with
  | found m' hj reaches keeps eax => exact .found m' (by omega) reaches keeps eax
  | passed m' hj reaches keeps eax edx =>
      refine .of_reaches reaches keeps (.aligned
        ((Instr.alu .xor .edx (.reg .edx)).exec m') (j + 1) hlast hj (.head rfl .refl)
        ⟨rfl, rfl, rfl, rfl, rfl, rfl, fun _ hbefore => .inl hbefore⟩ eax ?_)
      simp [Instr.exec, AluOp.result, Machine.value]

theorem and_three (a : Word) : 3 &&& a = BitVec.ofNat 32 (a.toNat % 4) := by
  apply BitVec.eq_of_toNat_eq
  rw [BitVec.toNat_and, Nat.and_comm, BitVec.toNat_ofNat, Nat.mod_eq_of_lt (by omega)]
  exact Nat.and_two_pow_sub_one_eq_mod a.toNat 2

/-- Two bytes are checked, and a third one if the first is the second of a word. -/
theorem approached_bytes (string : StringAt m.mem start length)
    (heax : m.regs .eax = start + BitVec.ofNat 32 0)
    (hedx : m.regs .edx = BitVec.ofNat 32 (start.toNat % 4))
    (hr : start.toNat % 4 = 1 ∨ start.toNat % 4 = 2) :
    Approached start length m
      (checkByte ++ .instr (.inc .eax) :: (checkByte ++ .instr (.inc .eax) ::
        .instr (.alu .xor .edx (.imm 2)) :: .jcc .e .l1 :: program.codeAt .l0)) := by
  have hdh : byteOf (m.regs .edx) 1 = 0 := by
    rw [hedx]
    rcases hr with hr | hr <;> rw [hr] <;> rfl
  cases byteChecked string rfl heax (Nat.zero_le length) hdh with
  | found m₁ hj reaches keeps eax =>
      exact .found m₁ (by rw [alignedFrom]; omega) reaches keeps eax
  | passed m₁ hj reaches keeps eax edx =>
      refine .of_reaches reaches keeps ?_
      rw [← keeps.mem] at string
      rw [← edx] at hdh hedx
      cases byteChecked string rfl eax hj hdh with
      | found m₂ hj reaches keeps eax =>
          exact .found m₂ (by rw [alignedFrom]; omega) reaches keeps eax
      | passed m₂ hj reaches keeps eax edx =>
          refine .of_reaches reaches keeps ?_
          rw [← keeps.mem] at string
          rw [← edx] at hedx
          obtain ⟨m₃, hm₃⟩ : ∃ m₃, m₃ = (Instr.alu .xor .edx (.imm 2)).exec m₂ := ⟨_, rfl⟩
          have hedx₃ : m₃.regs .edx = BitVec.ofNat 32 (start.toNat % 4) ^^^ 2 := by
            rw [hm₃, ← hedx]
            rfl
          have hzero : m₃.flags.zero = (m₃.regs .edx == 0) := by
            rw [hm₃]
            rfl
          have hkeeps₃ : Keeps start length m₂ m₃ := by
            rw [hm₃]
            exact ⟨rfl, rfl, rfl, rfl, rfl, rfl, fun _ hbefore => .inl hbefore⟩
          have heax₃ : m₃.regs .eax = start + BitVec.ofNat 32 2 := by
            rw [hm₃]
            exact eax
          have hxor : program.Reaches
              ⟨.code (.instr (.alu .xor .edx (.imm 2)) :: .jcc .e .l1 :: program.codeAt .l0), m₂⟩
              ⟨.code (.jcc .e .l1 :: program.codeAt .l0), m₃⟩ := by
            rw [hm₃]
            exact .head rfl .refl
          rw [← hkeeps₃.mem] at string
          rcases hr with hr | hr
          · rw [hr] at hedx₃
            have hfalse : m₃.flags.zero = false := by
              rw [hzero, hedx₃]
              rfl
            exact .of_reaches (hxor.trans (.untaken hfalse .refl)) hkeeps₃
              (approached_l0 string heax₃ hj (by rw [hedx₃]; rfl)
                (by rw [alignedFrom]; omega))
          · rw [hr] at hedx₃
            have htrue : m₃.flags.zero = true := by
              rw [hzero, hedx₃]
              rfl
            exact .aligned m₃ 2 (by rw [alignedFrom]; omega) hj
              (hxor.trans (.taken htrue .refl)) hkeeps₃ heax₃ hedx₃

theorem approached_strlenBeginImpl (string : StringAt m.mem start length)
    (heax : m.regs .eax = start) :
    Approached start length m (program.codeAt .strlenBeginImpl) := by
  obtain ⟨m₁, hm₁⟩ : ∃ m₁, m₁ =
      Instr.execAll [.mov .edx (.imm 3), .alu .and .edx (.reg .eax)] m := ⟨_, rfl⟩
  have hkeeps₁ : Keeps start length m m₁ := by
    rw [hm₁]
    exact ⟨rfl, rfl, rfl, rfl, rfl, rfl, fun _ hbefore => .inl hbefore⟩
  have heax₁ : m₁.regs .eax = start + BitVec.ofNat 32 0 := by
    rw [hm₁, BitVec.ofNat_eq_ofNat, BitVec.add_zero, ← heax]
    rfl
  have hedx₁ : m₁.regs .edx = BitVec.ofNat 32 (start.toNat % 4) := by
    rw [hm₁, ← and_three, ← heax]
    rfl
  have hflags₁ : m₁.flags = .ofWord false (m₁.regs .edx) := by
    rw [hm₁]
    rfl
  have hbytes : Approached start length m₁
      (.jcc .e .l1 :: .jcc .p .l0 :: (checkByte ++ .instr (.inc .eax) ::
        (checkByte ++ .instr (.inc .eax) :: .instr (.alu .xor .edx (.imm 2)) ::
          .jcc .e .l1 :: program.codeAt .l0))) := by
    rw [← hkeeps₁.mem] at string
    have hcases : start.toNat % 4 = 0 ∨ start.toNat % 4 = 3 ∨
        (start.toNat % 4 = 1 ∨ start.toNat % 4 = 2) := by omega
    rcases hcases with hr | hr | hr
    · rw [hr] at hedx₁
      have htrue : Cond.e.holds m₁.flags = true := by
        rw [hflags₁, hedx₁]
        rfl
      exact .aligned m₁ 0 (by rw [alignedFrom]; omega) (Nat.zero_le length)
        (.taken htrue .refl) .refl heax₁ hedx₁
    · rw [hr] at hedx₁
      have hfalse : Cond.e.holds m₁.flags = false := by
        rw [hflags₁, hedx₁]
        rfl
      have hparity : Cond.p.holds m₁.flags = true := by
        rw [hflags₁, hedx₁]
        decide
      exact .of_reaches (.untaken hfalse (.taken hparity .refl)) .refl
        (approached_l0 string heax₁ (Nat.zero_le length) (by rw [hedx₁]; rfl)
          (by rw [alignedFrom]; omega))
    · have hfalse : Cond.e.holds m₁.flags = false ∧ Cond.p.holds m₁.flags = false := by
        rw [hflags₁, hedx₁]
        rcases hr with hr | hr <;> rw [hr] <;> decide
      exact .of_reaches (.untaken hfalse.1 (.untaken hfalse.2 .refl)) .refl
        (approached_bytes string heax₁ hedx₁ hr)
  refine .of_reaches ?_ hkeeps₁ hbytes
  rw [hm₁]
  exact .head rfl (.head rfl .refl)

/-! The loop over the aligned words. -/

structure Located (start : Word) (length j : Nat) (m m' : Machine) : Prop where
  aligned : (start.toNat + j) % 4 = 0
  first : j ≤ length
  last : length < j + 4
  eax : m'.regs .eax = start + BitVec.ofNat 32 j + 4
  ecx : m'.regs .ecx = m.mem.read (start + BitVec.ofNat 32 j) + magic
  keeps : Keeps start length m m'

/-- The code finds the word with the NUL when it is entered at the word at `start + j`. -/
def Searches (start : Word) (length : Nat) (code : Code) (j : Nat) : Prop :=
  ∀ m, StringAt m.mem start length → m.regs .eax = start + BitVec.ofNat 32 j →
    m.regs .edx = 0 → j ≤ length → (start.toNat + j) % 4 = 0 →
    ∃ j' m', program.Reaches ⟨.code code, m⟩ ⟨.code (program.codeAt .l3), m'⟩ ∧
      Located start length j' m m'

theorem StringAt.byteOf_read {mem : Memory} {i j : Nat} (hi : i < 4) :
    byteOf (mem.read (start + BitVec.ofNat 32 j)) i = mem (start + BitVec.ofNat 32 (j + i)) := by
  rw [Memory.byteOf_read mem _ hi, BitVec.ofNat_add, BitVec.add_assoc]

/-- The test finds out whether the string goes on behind the word. -/
theorem StringAt.passesTest_iff {mem : Memory} (string : StringAt mem start length) {j : Nat}
    (hj : j ≤ length) :
    passesTest (mem.read (start + BitVec.ofNat 32 j)) = true ↔ j + 4 ≤ length := by
  rw [Strlen.passesTest_iff]
  constructor
  · intro hall
    by_contra hlt
    apply hall (length - j) (by omega)
    rw [StringAt.byteOf_read (by omega), Nat.add_sub_cancel' hj]
    exact string.nul
  · intro hle i hi
    rw [StringAt.byteOf_read hi]
    exact string.nonzero (j + i) (by omega)

structure Loaded (start : Word) (length j : Nat) (m m' : Machine) : Prop where
  eax : m'.regs .eax = start + BitVec.ofNat 32 j + 4
  ecx : m'.regs .ecx = m.mem.read (start + BitVec.ofNat 32 j) + magic
  edx : m'.regs .edx = 0 - m.mem.read (start + BitVec.ofNat 32 j) - 1
  carry : m'.flags.carry =
    AluOp.add.carry (m.mem.read (start + BitVec.ofNat 32 j)) magic
  keeps : Keeps start length m m'

theorem loaded {m : Machine} {j : Nat} (last : Stmt Label) (rest : Code)
    (string : StringAt m.mem start length)
    (heax : m.regs .eax = start + BitVec.ofNat 32 j) (hedx : m.regs .edx = 0)
    (hj : j ≤ length) (haligned : (start.toNat + j) % 4 = 0) :
    ∃ m₁, program.Reaches ⟨.code (iteration last ++ rest), m⟩
        ⟨.code (.jcc .nc .l3 :: .instr (.alu .xor .edx (.reg .ecx)) ::
          .instr (.alu .and .edx (.imm (~~~magic))) :: last :: rest), m₁⟩ ∧
      Loaded start length j m m₁ := by
  have hvalue : m.value (.mem .eax 0) = m.mem.read (start + BitVec.ofNat 32 j) := by
    rw [Machine.value, heax]
    simp
  obtain ⟨m₁, hm₁⟩ : ∃ m₁, m₁ = Instr.execAll [.mov .ecx (.mem .eax 0),
    .alu .add .eax (.imm 4), .alu .sub .edx (.reg .ecx), .alu .add .ecx (.imm magic),
    .dec .edx] m := ⟨_, rfl⟩
  refine ⟨m₁, ?_, ?_, ?_, ?_, ?_, ?_⟩
  · rw [hm₁]
    exact .head rfl (.head rfl (.head rfl (.head rfl (.head rfl .refl))))
  · rw [hm₁, ← heax]
    rfl
  · rw [hm₁, ← hvalue]
    rfl
  · rw [hm₁, ← hvalue, ← hedx]
    rfl
  · rw [hm₁, ← hvalue]
    simp [Instr.execAll, Instr.exec, Flags.ofWord, Machine.value, Machine.touch]
  · have hreads : m₁.reads = m.reads ++
        (List.range 4).map fun i => (.eax, m.regs .eax + 0 + BitVec.ofNat 32 i) := by
      rw [hm₁]
      rfl
    refine ⟨by rw [hm₁]; rfl, by rw [hm₁]; rfl, by rw [hm₁]; rfl, by rw [hm₁]; rfl,
      by rw [hm₁]; rfl, by rw [hm₁]; rfl, ?_⟩
    intro access haccess
    rw [hreads, List.mem_append] at haccess
    cases haccess with
    | inl hbefore => exact .inl hbefore
    | inr hword =>
        obtain ⟨i, hi, rfl⟩ := List.mem_map.mp hword
        refine .inr ⟨rfl, ?_⟩
        rw [heax, BitVec.ofNat_eq_ofNat, BitVec.add_zero]
        exact string.inStringWord hj haligned (List.mem_range.mp hi)

theorem Loaded.selected {m m₁ : Machine} {j : Nat} (loaded : Loaded start length j m m₁)
    (hcarry : m₁.flags.carry = true) (code : Code) :
    ∃ m₂, program.Reaches ⟨.code (.instr (.alu .xor .edx (.reg .ecx)) ::
          .instr (.alu .and .edx (.imm (~~~magic))) :: code), m₁⟩ ⟨.code code, m₂⟩ ∧
      m₂.regs .eax = m₁.regs .eax ∧ m₂.regs .ecx = m₁.regs .ecx ∧
      m₂.flags.zero = passesTest (m.mem.read (start + BitVec.ofNat 32 j)) ∧
      (m₂.flags.zero = true → m₂.regs .edx = 0) ∧ Keeps start length m m₂ := by
  obtain ⟨m₂, hm₂⟩ : ∃ m₂, m₂ = Instr.execAll [.alu .xor .edx (.reg .ecx),
    .alu .and .edx (.imm (~~~magic))] m₁ := ⟨_, rfl⟩
  have hzero : m₂.flags.zero = (m₂.regs .edx == 0) := by
    rw [hm₂]
    rfl
  refine ⟨m₂, ?_, ?_, ?_, ?_, ?_, ?_⟩
  · rw [hm₂]
    exact .head rfl (.head rfl .refl)
  · rw [hm₂]
    rfl
  · rw [hm₂]
    rfl
  · rw [passesTest, ← loaded.carry, hcarry, Bool.true_and, ← loaded.edx, ← loaded.ecx,
      hzero, hm₂]
    rfl
  · intro hset
    rw [hzero, beq_iff_eq] at hset
    exact hset
  · refine loaded.keeps.trans ?_
    rw [hm₂]
    exact ⟨rfl, rfl, rfl, rfl, rfl, rfl, fun _ hbefore => .inl hbefore⟩

theorem Searches.iteration {last : Stmt Label} {next : Code} {j : Nat}
    (hfound : ∀ m : Machine, m.flags.zero = false →
      program.Reaches ⟨.code (last :: rest), m⟩ ⟨.code (program.codeAt .l3), m⟩)
    (hpassed : ∀ m : Machine, m.flags.zero = true →
      program.Reaches ⟨.code (last :: rest), m⟩ ⟨.code next, m⟩)
    (searches : Searches start length next (j + 4)) :
    Searches start length (iteration last ++ rest) j := by
  intro m string heax hedx hj haligned
  obtain ⟨m₁, hloaded, loaded⟩ := loaded last rest string heax hedx hj haligned
  have hlocated : ∀ m', Keeps start length m m' → m'.regs .eax = m₁.regs .eax →
      m'.regs .ecx = m₁.regs .ecx →
      passesTest (m.mem.read (start + BitVec.ofNat 32 j)) = false →
      Located start length j m m' := by
    intro m' keeps heax' hecx' hfails
    refine ⟨haligned, hj, ?_, heax'.trans loaded.eax, hecx'.trans loaded.ecx, keeps⟩
    by_contra hlt
    have hpasses := (string.passesTest_iff hj).mpr (by omega)
    rw [hfails] at hpasses
    cases hpasses
  cases hcarry : m₁.flags.carry with
  | false =>
      have hnc : Cond.nc.holds m₁.flags = true := by
        rw [Cond.holds, hcarry]
        rfl
      refine ⟨j, m₁, hloaded.trans (.taken hnc .refl),
        hlocated m₁ loaded.keeps rfl rfl ?_⟩
      rw [passesTest, ← loaded.carry, hcarry]
      rfl
  | true =>
      have hnc : Cond.nc.holds m₁.flags = false := by
        rw [Cond.holds, hcarry]
        rfl
      obtain ⟨m₂, hselected, heax₂, hecx₂, hzero, hedx₂, keeps⟩ :=
        loaded.selected hcarry (last :: rest)
      have htested := hloaded.trans (.untaken hnc hselected)
      cases hset : m₂.flags.zero with
      | false =>
          exact ⟨j, m₂, htested.trans (hfound m₂ hset),
            hlocated m₂ keeps heax₂ hecx₂ (hzero.symm.trans hset)⟩
      | true =>
          have hnext : j + 4 ≤ length :=
            (string.passesTest_iff hj).mp (hzero.symm.trans hset)
          have heax' : m₂.regs .eax = start + BitVec.ofNat 32 (j + 4) := by
            rw [heax₂, loaded.eax, BitVec.ofNat_add, BitVec.add_assoc]
            rfl
          obtain ⟨j', m', reaches, located⟩ := searches m₂ (keeps.mem ▸ string) heax'
            (hedx₂ hset) hnext (by omega)
          refine ⟨j', m', (htested.trans (hpassed m₂ hset)).trans reaches,
            located.aligned, located.first, located.last, located.eax, ?_,
            keeps.trans located.keeps⟩
          rw [located.ecx, keeps.mem]

/-- The loop finds the word with the NUL. -/
theorem searches_l1 (j : Nat) : Searches start length (program.codeAt .l1) j := by
  induction hn : length - j using Nat.strongRecOn generalizing j with
  | ind n ih =>
      have hnext : Searches start length (program.codeAt .l1) (j + 4 + 4 + 4 + 4) := by
        rcases Nat.lt_or_ge length (j + 4 + 4 + 4 + 4) with hlt | hge
        · intro m _ _ _ hj
          omega
        · exact ih _ (by omega) _ rfl
      have hmiddle : ∀ {code : Code} (m : Machine), m.flags.zero = false →
          program.Reaches ⟨.code (.jcc .ne .l3 :: code), m⟩ ⟨.code (program.codeAt .l3), m⟩ :=
        fun m hzero => .taken (by rw [Cond.holds, hzero]; rfl) .refl
      have hgo : ∀ {code : Code} (m : Machine), m.flags.zero = true →
          program.Reaches ⟨.code (.jcc .ne .l3 :: code), m⟩ ⟨.code code, m⟩ :=
        fun m hzero => .untaken (by rw [Cond.holds, hzero]; rfl) .refl
      have hlast : Searches start length
          (Strlen.iteration (.jcc .e .l1) ++ program.codeAt .l3) (j + 4 + 4 + 4) :=
        .iteration (fun m hzero => .untaken hzero .refl) (fun m hzero => .taken hzero .refl)
          hnext
      exact .iteration hmiddle hgo (.iteration hmiddle hgo (.iteration hmiddle hgo hlast))

end Scan

end RrWorkbench.Strlen
