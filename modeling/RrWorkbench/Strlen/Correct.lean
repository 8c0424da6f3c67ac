import RrWorkbench.Strlen.Scan

namespace RrWorkbench.Strlen

open RrWorkbench.X86 Memory

/-! The exit of the loop with its counters, and the whole function. -/

def tick (ticks i : Nat) : Word := if i < ticks then 1 else 0

/-- The first `ticks` counters have been incremented; `%eax` is at byte `position` of
the string. -/
structure Counted (start : Word) (position ticks : Nat) (m m' : Machine) : Prop where
  eax : m'.regs .eax = start + BitVec.ofNat 32 position
  ebx : m'.regs .ebx = m.regs .ebx + tick ticks 0
  esi : m'.regs .esi = m.regs .esi + tick ticks 1
  edi : m'.regs .edi = m.regs .edi + tick ticks 2
  ebp : m'.regs .ebp = m.regs .ebp + tick ticks 3
  esp : m'.regs .esp = m.regs .esp
  mem : m'.mem = m.mem
  reads : m'.reads = m.reads

section Exit

variable {start : Word} {length j : Nat} {m₀ m : Machine}

theorem byteOf_shiftRight (w : Word) : byteOf (w >>> 16) 0 = byteOf w 2 := by
  apply BitVec.eq_of_toNat_eq
  rw [toNat_byteOf, toNat_byteOf, BitVec.toNat_ushiftRight, Nat.shiftRight_eq_div_pow]
  omega

theorem add_ofNat_succ (a : Word) (n : Nat) :
    a + BitVec.ofNat 32 n + 1#32 = a + BitVec.ofNat 32 (n + 1) := by
  rw [BitVec.ofNat_add, BitVec.add_assoc]

structure Tested (start : Word) (j i : Nat) (w : Word) (m m' : Machine) : Prop where
  counted : Counted start (j + i) (i + 1) m m'
  zero : m'.flags.zero = (byteOf w i == 0)

/-- The jump behind a test is taken at the NUL. -/
theorem Tested.jump {mem : Memory} {w : Word} {i : Nat} {m' : Machine} (rest : Code)
    (string : StringAt mem start length)
    (hw : w = mem.read (start + BitVec.ofNat 32 j)) (hi : i < 4) (hle : j + i ≤ length)
    (tested : Tested start j i w m m') :
    (j + i = length ∧ program.Reaches ⟨.code (.jcc .e .l2 :: rest), m'⟩
        ⟨.code (program.codeAt .l2), m'⟩) ∨
      (j + (i + 1) ≤ length ∧
        program.Reaches ⟨.code (.jcc .e .l2 :: rest), m'⟩ ⟨.code rest, m'⟩) := by
  have hzero := tested.zero
  rw [hw, StringAt.byteOf_read hi] at hzero
  rcases Nat.lt_or_ge (j + i) length with hlt | hge
  · have hfalse : m'.flags.zero = false := by
      rw [hzero, beq_eq_false_iff_ne]
      exact string.nonzero (j + i) hlt
    exact .inr ⟨hlt, .untaken hfalse .refl⟩
  · obtain rfl : j + i = length := Nat.le_antisymm hle hge
    have htrue : m'.flags.zero = true := by
      rw [hzero, beq_iff_eq]
      exact string.nul
    exact .inl ⟨rfl, .taken htrue .refl⟩

theorem reaches_l2 (string : StringAt m₀.mem start length)
    (located : Located start length j m₀ m) :
    ∃ i m', length = j + i ∧ Counted start length (i + 1) m m' ∧
      program.Reaches ⟨.code (program.codeAt .l3), m⟩ ⟨.code (program.codeAt .l2), m'⟩ := by
  obtain ⟨w, hw⟩ : ∃ w, w = m₀.mem.read (start + BitVec.ofNat 32 j) := ⟨_, rfl⟩
  have hlast := located.last
  obtain ⟨m₁, hm₁⟩ : ∃ m₁, m₁ = Instr.execAll [.alu .sub .eax (.imm 4),
    .alu .sub .ecx (.imm magic), .inc .ebx, .cmpb (.low .ecx) (.imm 0)] m := ⟨_, rfl⟩
  have reaches₁ : program.Reaches ⟨.code (program.codeAt .l3), m⟩
      ⟨.code ((program.codeAt .l3).drop 4), m₁⟩ := by
    rw [hm₁]
    exact .head rfl (.head rfl (.head rfl (.head rfl .refl)))
  have hecx₁ : m₁.regs .ecx = w := by
    have hsub : m₁.regs .ecx = m.regs .ecx - magic := by rw [hm₁]; rfl
    rw [hsub, located.ecx, ← hw, BitVec.add_sub_cancel]
  have tested₁ : Tested start j 0 w m m₁ := by
    have heax₁ : m₁.regs .eax = m.regs .eax - 4 := by rw [hm₁]; rfl
    refine ⟨⟨by rw [heax₁, located.eax, BitVec.add_sub_cancel]; rfl,
      ?_, ?_, ?_, ?_, ?_, ?_, ?_⟩, ?_⟩
    case refine_8 =>
      rw [← hecx₁, hm₁]
      simp [Instr.execAll, Instr.exec, Flags.ofByte, Machine.byteValue, Machine.touchByte]
    all_goals simp [hm₁, Instr.execAll, Instr.exec, Machine.touch, Machine.touchByte, tick]
  rcases tested₁.jump ((program.codeAt .l3).drop 5) string hw (by decide) located.first with
    ⟨rfl, jump⟩ | ⟨hle₁, jump⟩
  · exact ⟨0, m₁, rfl, tested₁.counted, reaches₁.trans jump⟩
  obtain ⟨m₂, hm₂⟩ : ∃ m₂, m₂ = Instr.execAll [.inc .esi, .inc .eax,
    .testb (.high .ecx) (.high .ecx)] m₁ := ⟨_, rfl⟩
  have reaches₂ : program.Reaches ⟨.code (program.codeAt .l3), m⟩
      ⟨.code ((program.codeAt .l3).drop 8), m₂⟩ := by
    refine (reaches₁.trans jump).trans ?_
    rw [hm₂]
    exact .head rfl (.head rfl (.head rfl .refl))
  have tested₂ : Tested start j 1 w m m₂ := by
    refine ⟨⟨?_, ?_, ?_, ?_, ?_, ?_, ?_, ?_⟩, ?_⟩
    case refine_9 =>
      rw [← hecx₁, hm₂]
      simp [Instr.execAll, Instr.exec, Flags.ofByte, Machine.byteValue, Machine.touchByte]
    all_goals simp [hm₂, Instr.execAll, Instr.exec, Machine.touchByte, tick,
      tested₁.counted.eax, tested₁.counted.ebx, tested₁.counted.esi, tested₁.counted.edi,
      tested₁.counted.ebp, tested₁.counted.esp, tested₁.counted.mem, tested₁.counted.reads,
      add_ofNat_succ]
  rcases tested₂.jump ((program.codeAt .l3).drop 9) string hw (by decide) hle₁ with
    ⟨rfl, jump⟩ | ⟨hle₂, jump⟩
  · exact ⟨1, m₂, rfl, tested₂.counted, reaches₂.trans jump⟩
  obtain ⟨m₃, hm₃⟩ : ∃ m₃, m₃ = Instr.execAll [.shr .ecx 16, .inc .eax, .inc .edi,
    .cmpb (.low .ecx) (.imm 0)] m₂ := ⟨_, rfl⟩
  have hecx₂ : m₂.regs .ecx = w := by rw [hm₂, ← hecx₁]; rfl
  have reaches₃ : program.Reaches ⟨.code (program.codeAt .l3), m⟩
      ⟨.code ((program.codeAt .l3).drop 13), m₃⟩ := by
    refine (reaches₂.trans jump).trans ?_
    rw [hm₃]
    exact .head rfl (.head rfl (.head rfl (.head rfl .refl)))
  have tested₃ : Tested start j 2 w m m₃ := by
    refine ⟨⟨?_, ?_, ?_, ?_, ?_, ?_, ?_, ?_⟩, ?_⟩
    case refine_9 =>
      rw [← hecx₂, ← byteOf_shiftRight, hm₃]
      simp [Instr.execAll, Instr.exec, Flags.ofByte, Machine.byteValue, Machine.touchByte]
    all_goals simp [hm₃, Instr.execAll, Instr.exec, Machine.touchByte, tick,
      tested₂.counted.eax, tested₂.counted.ebx, tested₂.counted.esi, tested₂.counted.edi,
      tested₂.counted.ebp, tested₂.counted.esp, tested₂.counted.mem, tested₂.counted.reads,
      add_ofNat_succ]
  rcases tested₃.jump ((program.codeAt .l3).drop 14) string hw (by decide) hle₂ with
    ⟨rfl, jump⟩ | ⟨hle₃, jump⟩
  · exact ⟨2, m₃, rfl, tested₃.counted, reaches₃.trans jump⟩
  -- the last byte is not tested: it is the only one that is left
  obtain rfl : j + 3 = length := by omega
  refine ⟨3, Instr.execAll [.inc .ebp, .inc .eax] m₃, rfl, ?_,
    (reaches₃.trans jump).trans (.head rfl (.head rfl .refl))⟩
  refine ⟨?_, ?_, ?_, ?_, ?_, ?_, ?_, ?_⟩
  all_goals simp [Instr.execAll, Instr.exec, tick, tested₃.counted.eax, tested₃.counted.ebx,
    tested₃.counted.esi, tested₃.counted.edi, tested₃.counted.ebp, tested₃.counted.esp,
    tested₃.counted.mem, tested₃.counted.reads, add_ofNat_succ]

end Exit

/-! From the begin of the implementation to its exit. -/

/-- How many counters are incremented: none if the NUL is before the first aligned
word. -/
def ticksOf (start : Word) (length : Nat) : Nat :=
  if start.toNat + length < alignedFrom start then 0 else (start.toNat + length) % 4 + 1

structure Scanned (start : Word) (length : Nat) (m m' : Machine) : Prop where
  eax : m'.regs .eax = start + BitVec.ofNat 32 length
  ebx : m'.regs .ebx = m.regs .ebx + tick (ticksOf start length) 0
  esi : m'.regs .esi = m.regs .esi + tick (ticksOf start length) 1
  edi : m'.regs .edi = m.regs .edi + tick (ticksOf start length) 2
  ebp : m'.regs .ebp = m.regs .ebp + tick (ticksOf start length) 3
  esp : m'.regs .esp = m.regs .esp
  mem : m'.mem = m.mem
  reads : ∀ access ∈ m'.reads,
    access ∈ m.reads ∨ access.1 = .eax ∧ InStringWord start length access.2

theorem scanned {start : Word} {length : Nat} {m : Machine}
    (string : StringAt m.mem start length) (heax : m.regs .eax = start) :
    ∃ m', program.Reaches ⟨.code (program.codeAt .strlenBeginImpl), m⟩
        ⟨.code (program.codeAt .l2), m'⟩ ∧
      Scanned start length m m' := by
  cases approached_strlenBeginImpl string heax with
  | found m' hbefore reaches keeps eax =>
      refine ⟨m', reaches, eax, ?_, ?_, ?_, ?_, keeps.esp, keeps.mem, keeps.reads⟩
      all_goals rw [ticksOf, if_pos hbefore, tick, if_neg (Nat.not_lt_zero _),
        BitVec.ofNat_eq_ofNat, BitVec.add_zero]
      · exact keeps.ebx
      · exact keeps.esi
      · exact keeps.edi
      · exact keeps.ebp
  | aligned m₁ j haligned hj reaches keeps eax edx =>
      rw [← keeps.mem] at string
      have halign : (start.toNat + j) % 4 = 0 := by
        rw [haligned, alignedFrom, Nat.mul_mod_left]
      obtain ⟨j', m₂, reaches₂, located⟩ := searches_l1 j m₁ string eax edx hj halign
      obtain ⟨i, m₃, rfl, counted, reaches₃⟩ := reaches_l2 string located
      have hticks : ticksOf start (j' + i) = i + 1 := by
        have hafter : ¬ start.toNat + (j' + i) < alignedFrom start := by omega
        have hword := located.aligned
        have hlast := located.last
        rw [ticksOf, if_neg hafter]
        omega
      have keeps' := keeps.trans located.keeps
      refine ⟨m₃, (reaches.trans reaches₂).trans reaches₃, counted.eax, ?_, ?_, ?_, ?_,
        counted.esp.trans keeps'.esp, counted.mem.trans keeps'.mem,
        counted.reads ▸ keeps'.reads⟩
      all_goals rw [hticks]
      · rw [counted.ebx, keeps'.ebx]
      · rw [counted.esi, keeps'.esi]
      · rw [counted.edi, keeps'.edi]
      · rw [counted.ebp, keeps'.ebp]

/-! Entry and exit of the function. -/

/-- An access to the words that the function pushes, its return address or its
argument. -/
def InFrame (m : Machine) (access : Reg × Word) : Prop :=
  access.1 = .esp ∧ (access.2 - (m.regs .esp - 20)).toNat < 28

structure Entered (m m' : Machine) (pushed : List Word) : Prop where
  stack : m'.Stack (pushed ++ [m.mem.read (m.regs .esp), m.mem.read (m.regs .esp + 4)])
  eax : m'.regs .eax = m.mem.read (m.regs .esp + 4)
  esp : m'.regs .esp = m.regs .esp - BitVec.ofNat 32 (4 * pushed.length)
  mem : SameAbove (m.regs .esp) (4 * pushed.length) m.mem m'.mem
  reads : ∀ access ∈ m'.reads, access ∈ m.reads ∨ InFrame m access

section Entry

variable {m : Machine}

theorem entered (m : Machine) :
    ∃ m', program.Reaches ⟨.code (program.codeAt .strlen), m⟩
        ⟨.code ((program.codeAt .strlen).drop 2), m'⟩ ∧
      Entered m m' [] ∧ m'.flags.zero = (m.regs .edi == instrument) ∧
      ∀ r, r ≠ .eax → m'.regs r = m.regs r := by
  refine ⟨Instr.execAll [.mov .eax str, .cmp .edi (.imm instrument)] m,
    .head rfl (.head rfl .refl), ⟨⟨rfl, rfl, trivial⟩, rfl, (BitVec.sub_zero _).symm, .refl,
      ?_⟩, ?_, fun r hr => Function.update_of_ne hr _ _⟩
  · intro access haccess
    rcases Machine.mem_reads_reading m .esp 4 4 haccess with hbefore | ⟨i, hi, rfl⟩
    · exact .inl hbefore
    · refine .inr ⟨rfl, ?_⟩
      simp only
      bv_omega
  · simp only [Instr.execAll, List.foldl_cons, List.foldl_nil, Instr.exec,
      Machine.setFlags_flags, Flags.ofWord, Machine.value, Machine.set_regs]
    rw [Function.update_of_ne (by decide), Bool.eq_iff_iff, beq_iff_eq, beq_iff_eq]
    have htouch : (m.touch str).regs .edi = m.regs .edi := rfl
    rw [htouch]
    constructor <;> intro heq <;> bv_omega

theorem entered_plain (hedi : m.regs .edi ≠ instrument) :
    ∃ m', program.Reaches ⟨.code (program.codeAt .strlen), m⟩
        ⟨.code (program.codeAt .strlenBeginImpl), m'⟩ ∧
      Entered m m' [0, m.regs .ebp, m.regs .edi, m.regs .esi, m.regs .ebx] := by
  obtain ⟨m₁, reaches₁, entered, hzero, hregs⟩ := entered m
  have hfalse : m₁.flags.zero = false := by
    rw [hzero, beq_eq_false_iff_ne]
    exact hedi
  have saved := pushed [.ebx, .esi, .edi, .ebp] (by decide) entered.stack (by simp)
  obtain ⟨m₂, hm₂⟩ : ∃ m₂, m₂ = Instr.execAll (pushes [.ebx, .esi, .edi, .ebp]) m₁ :=
    ⟨_, rfl⟩
  rw [← hm₂] at saved
  have hesp : m₁.regs .esp = m.regs .esp := hregs .esp (by decide)
  have hesp₂ : m₂.regs .esp = m.regs .esp - 16 := by
    rw [saved.esp, hesp]
    rfl
  refine ⟨m₂.push 0, ?_, ?_, ?_, ?_, ?_, ?_⟩
  · refine reaches₁.trans (.untaken hfalse (.instrs (pushes [.ebx, .esi, .edi, .ebp]) ?_))
    rw [← hm₂]
    exact .head rfl (.head rfl .refl)
  · have hstack := saved.stack.push (v := 0) (by simp)
    rw [List.reverse, List.reverseAux, List.reverseAux, List.reverseAux, List.reverseAux,
      List.reverseAux, List.map_cons, List.map_cons, List.map_cons, List.map_cons,
      hregs .ebx (by decide), hregs .esi (by decide), hregs .edi (by decide),
      hregs .ebp (by decide)] at hstack
    exact hstack
  · rw [Machine.push_regs, Function.update_of_ne (by decide), saved.regs .eax (by decide)]
    exact entered.eax
  · rw [Machine.push_regs, Function.update_self, hesp₂, BitVec.sub_sub]
    rfl
  · have hpush := Machine.sameAbove_push (m := m₂) (v := 0)
    rw [hesp₂] at hpush
    have hsaved := saved.mem
    rw [hesp] at hsaved
    exact (entered.mem.mono (Nat.zero_le _)).trans
      ((hsaved.mono (by simp)).trans (hpush.lower 16 (by decide)))
  · intro access haccess
    have hbefore : access ∈ m₂.reads := haccess
    rw [saved.reads] at hbefore
    exact entered.reads access hbefore

theorem entered_instrument (hedi : m.regs .edi = instrument) :
    ∃ m', program.Reaches ⟨.code (program.codeAt .strlen), m⟩
        ⟨.code (program.codeAt .strlenBeginImpl), m'⟩ ∧
      Entered m m' [1] ∧ ∀ r ∈ [Reg.ebx, .esi, .edi, .ebp], m'.regs r = 0 := by
  obtain ⟨m₁, reaches₁, entered, hzero, hregs⟩ := entered m
  have htrue : m₁.flags.zero = true := by
    rw [hzero, beq_iff_eq]
    exact hedi
  obtain ⟨m₂, hm₂⟩ : ∃ m₂, m₂ = Instr.execAll [.alu .xor .ebx (.reg .ebx),
    .alu .xor .esi (.reg .esi), .alu .xor .edi (.reg .edi), .alu .xor .ebp (.reg .ebp)] m₁ :=
    ⟨_, rfl⟩
  have hesp₂ : m₂.regs .esp = m.regs .esp := by
    rw [hm₂]
    exact hregs .esp (by decide)
  have hmem₂ : m₂.mem = m₁.mem := by rw [hm₂]; rfl
  have hstack₂ : m₂.Stack ([m.mem.read (m.regs .esp), m.mem.read (m.regs .esp + 4)]) := by
    have hstack := entered.stack
    rw [Machine.Stack, hregs .esp (by decide)] at hstack
    rw [Machine.Stack, hesp₂, hmem₂]
    exact hstack
  refine ⟨m₂.push 1, ?_, ⟨hstack₂.push (by simp), ?_, ?_, ?_, ?_⟩, ?_⟩
  · refine reaches₁.trans (.taken htrue ?_)
    rw [hm₂]
    exact .head rfl (.head rfl (.head rfl (.head rfl (.head rfl .refl))))
  · rw [hm₂]
    exact entered.eax
  · rw [Machine.push_regs, Function.update_self, hesp₂]
    rfl
  · have hpush := Machine.sameAbove_push (m := m₂) (v := 1)
    rw [hesp₂, hmem₂] at hpush
    exact (entered.mem.mono (by decide)).trans hpush
  · intro access haccess
    rw [hm₂] at haccess
    exact entered.reads access haccess
  · intro r hr
    simp only [List.mem_cons, List.not_mem_nil, or_false] at hr
    rcases hr with rfl | rfl | rfl | rfl <;> simp [hm₂, Machine.push_regs, Instr.execAll, Instr.exec, AluOp.result,
      Machine.value, Machine.touch]

end Entry

structure Left (m m' : Machine) (words : Nat) (argument : Word) : Prop where
  eax : m'.regs .eax = m.regs .eax - argument
  esp : m'.regs .esp = m.regs .esp + BitVec.ofNat 32 (4 * words)
  mem : m'.mem = m.mem
  reads : ∀ access ∈ m'.reads, access ∈ m.reads ∨ m.AtTop (4 * words + 8) access

section Leave

variable {m : Machine} {returnAddress argument : Word}

theorem left_done (stack : m.Stack [returnAddress, argument]) :
    ∃ m', program.Reaches ⟨.code (program.codeAt .done), m⟩ ⟨.code [.ret], m'⟩ ∧
      Left m m' 0 argument ∧ ∀ r, r ≠ .eax → m'.regs r = m.regs r := by
  refine ⟨(Instr.alu .sub .eax str).exec m, .head rfl .refl,
    ⟨?_, (BitVec.add_zero _).symm, rfl, ?_⟩, fun r hr => Function.update_of_ne hr _ _⟩
  · have hargument : m.value str = argument := stack.2.1
    rw [← hargument]
    rfl
  · intro access haccess
    rcases Machine.mem_reads_reading m .esp 4 4 haccess with hbefore | ⟨i, hi, rfl⟩
    · exact .inl hbefore
    · refine .inr ⟨rfl, ?_⟩
      simp only
      bv_omega

theorem left_l2 {flag : Word} {words : List Word} (stack : m.Stack (flag :: words)) :
    ∃ m', program.Reaches ⟨.code (program.codeAt .l2), m⟩
        ⟨.code ((program.codeAt .l2).drop 2), m'⟩ ∧
      Popped m m' [.edx] [flag] words ∧ m'.flags.zero = (flag - 1 == 0) := by
  have popped : Popped m (Instr.execAll (pops [.edx]) m) [.edx] [flag] words :=
    popped [.edx] (by decide) (by decide) rfl (by decide) stack
  obtain ⟨m₁, hm₁⟩ : ∃ m₁, m₁ = Instr.execAll (pops [.edx]) m := ⟨_, rfl⟩
  rw [← hm₁] at popped
  refine ⟨(Instr.cmp .edx (.imm 1)).exec m₁, ?_, ⟨popped.stack, popped.esp, popped.restored,
    popped.regs, popped.mem, popped.reads⟩, ?_⟩
  · refine .instrs (pops [.edx]) ?_
    rw [← hm₁]
    exact .head rfl .refl
  · have hedx : m₁.regs .edx = flag := (List.cons.inj popped.restored).1
    rw [← hedx]
    rfl

theorem left_instrument (stack : m.Stack [1, returnAddress, argument]) :
    ∃ m', program.Reaches ⟨.code (program.codeAt .l2), m⟩ ⟨.code [.ret], m'⟩ ∧
      Left m m' 1 argument ∧
      ∀ r ∈ [Reg.ebx, .esi, .edi, .ebp], m'.regs r = m.regs r := by
  obtain ⟨m₁, reaches₁, popped, hzero⟩ := left_l2 stack
  obtain ⟨m₂, reaches₂, left, hregs⟩ := left_done popped.stack
  refine ⟨m₂, (reaches₁.trans (.taken hzero .refl)).trans reaches₂, ⟨?_, ?_, ?_, ?_⟩, ?_⟩
  · rw [left.eax, popped.regs .eax (by decide) (by decide)]
  · rw [left.esp, popped.esp, BitVec.add_assoc]
    rfl
  · rw [left.mem, popped.mem]
  · intro access haccess
    rcases left.reads access haccess with hbefore | ⟨hesp, hlt⟩
    · rcases popped.reads access hbefore with hbefore | ⟨hesp, hlt⟩
      · exact .inl hbefore
      · exact .inr ⟨hesp, Nat.lt_of_lt_of_le hlt (by decide)⟩
    · rw [popped.esp] at hlt
      refine .inr ⟨hesp, ?_⟩
      simp only [List.length_cons, List.length_nil] at hlt
      bv_omega
  · intro r hr
    have hne : r ≠ .eax ∧ r ≠ .esp ∧ r ∉ [Reg.edx] := by
      revert r
      decide
    rw [hregs r hne.1, popped.regs r hne.2.1 hne.2.2]

theorem left_plain {values : List Word} (hlength : values.length = 4)
    (stack : m.Stack (0 :: (values ++ [returnAddress, argument]))) :
    ∃ m', program.Reaches ⟨.code (program.codeAt .l2), m⟩ ⟨.code [.ret], m'⟩ ∧
      Left m m' 5 argument ∧ [Reg.ebp, .edi, .esi, .ebx].map m'.regs = values := by
  obtain ⟨m₁, reaches₁, popped₁, hzero⟩ := left_l2 stack
  have popped₂ := popped [.ebp, .edi, .esi, .ebx] (by decide) (by decide) hlength (by decide)
    popped₁.stack
  obtain ⟨m₂, hm₂⟩ : ∃ m₂, m₂ = Instr.execAll (pops [.ebp, .edi, .esi, .ebx]) m₁ :=
    ⟨_, rfl⟩
  rw [← hm₂] at popped₂
  obtain ⟨m₃, reaches₃, left, hregs⟩ := left_done popped₂.stack
  have hesp₂ : m₂.regs .esp = m.regs .esp + 20 := by
    rw [popped₂.esp, popped₁.esp, BitVec.add_assoc]
    rfl
  have reaches₂ : program.Reaches ⟨.code ((program.codeAt .l2).drop 2), m₁⟩
      ⟨.code (program.codeAt .done), m₂⟩ := by
    refine .untaken hzero (.instrs (pops [.ebp, .edi, .esi, .ebx]) ?_)
    rw [← hm₂]
    exact .refl
  refine ⟨m₃, (reaches₁.trans reaches₂).trans reaches₃, ⟨?_, ?_, ?_, ?_⟩, ?_⟩
  · rw [left.eax, popped₂.regs .eax (by decide) (by decide),
      popped₁.regs .eax (by decide) (by decide)]
  · rw [left.esp, hesp₂]
    exact BitVec.add_zero _
  · rw [left.mem, popped₂.mem, popped₁.mem]
  · intro access haccess
    rcases left.reads access haccess with hbefore | ⟨hesp, hlt⟩
    · rcases popped₂.reads access hbefore with hbefore | ⟨hesp, hlt⟩
      · rcases popped₁.reads access hbefore with hbefore | ⟨hesp, hlt⟩
        · exact .inl hbefore
        · exact .inr ⟨hesp, Nat.lt_of_lt_of_le hlt (by decide)⟩
      · rw [popped₁.esp] at hlt
        refine .inr ⟨hesp, ?_⟩
        simp only [List.length_cons, List.length_nil] at hlt
        bv_omega
    · rw [hesp₂] at hlt
      refine .inr ⟨hesp, ?_⟩
      bv_omega
  · have hmap : [Reg.ebp, .edi, .esi, .ebx].map m₃.regs =
        [Reg.ebp, .edi, .esi, .ebx].map m₂.regs := by
      refine List.map_congr_left fun r hr => hregs r ?_
      revert r
      decide
    rw [hmap, popped₂.restored]

end Leave

/-! The whole function. -/

def stackUse (m : Machine) : Nat := if m.regs .edi = instrument then 4 else 20

structure Returns (start : Word) (length : Nat) (m m' : Machine) : Prop where
  eax : m'.regs .eax = BitVec.ofNat 32 length
  esp : m'.regs .esp = m.regs .esp
  stack : SameAbove (m.regs .esp) (stackUse m) m.mem m'.mem
  reads : ∀ access ∈ m'.reads, access ∈ m.reads ∨ InFrame m access ∨
    access.1 = .eax ∧ InStringWord start length access.2

section Whole

variable {m m₁ m₂ m₃ : Machine} {start : Word} {length : Nat} {pushed : List Word}

/-- The implementation finds the NUL, and the pushed words are still there. -/
theorem Entered.scanned (entered : Entered m m₁ pushed)
    (string : StringAt m.mem start length)
    (hargument : m.mem.read (m.regs .esp + 4) = start)
    (hapart : ∀ i ≤ length,
      ¬ Below (m.regs .esp) (4 * pushed.length) (start + BitVec.ofNat 32 i)) :
    ∃ m₂, program.Reaches ⟨.code (program.codeAt .strlenBeginImpl), m₁⟩
        ⟨.code (program.codeAt .l2), m₂⟩ ∧
      Scanned start length m₁ m₂ ∧
      m₂.Stack (pushed ++ [m.mem.read (m.regs .esp), start]) := by
  have hsame : ∀ i ≤ length,
      m₁.mem (start + BitVec.ofNat 32 i) = m.mem (start + BitVec.ofNat 32 i) :=
    fun i hi => entered.mem _ (hapart i hi)
  have string₁ : StringAt m₁.mem start length := by
    refine ⟨fun i hi => ?_, ?_, string.fits⟩
    · rw [hsame i (Nat.le_of_lt hi)]
      exact string.nonzero i hi
    · rw [hsame length (Nat.le_refl length)]
      exact string.nul
  obtain ⟨m₂, reaches, scanned⟩ :=
    Strlen.scanned string₁ (entered.eax.trans hargument)
  refine ⟨m₂, reaches, scanned, ?_⟩
  have hstack := entered.stack
  rw [Machine.Stack, ← scanned.mem, ← scanned.esp, hargument] at hstack
  exact hstack

theorem stackUse_le (m : Machine) : stackUse m ≤ 20 := by
  rw [stackUse]
  split <;> omega

theorem Left.returns (left : Left m₂ m₃ pushed.length start)
    (scanned : Scanned start length m₁ m₂) (entered : Entered m m₁ pushed)
    (hpushed : 4 * pushed.length = stackUse m) : Returns start length m m₃ := by
  have huse := stackUse_le m
  have hesp₂ : m₂.regs .esp = m.regs .esp - BitVec.ofNat 32 (stackUse m) := by
    rw [scanned.esp, entered.esp, hpushed]
  refine ⟨?_, ?_, ?_, ?_⟩
  · rw [left.eax, scanned.eax, BitVec.add_comm, BitVec.add_sub_cancel]
  · rw [left.esp, hpushed, hesp₂, BitVec.sub_add_cancel]
  · rw [left.mem, scanned.mem, ← hpushed]
    exact entered.mem
  · intro access haccess
    rcases left.reads access haccess with hbefore | ⟨hesp, hlt⟩
    · rcases scanned.reads access hbefore with hbefore | hstring
      · rcases entered.reads access hbefore with hbefore | hframe
        · exact .inl hbefore
        · exact .inr (.inl hframe)
      · exact .inr (.inr hstring)
    · rw [hpushed, hesp₂] at hlt
      refine .inr (.inl ⟨hesp, ?_⟩)
      generalize stackUse m = use at huse hlt
      bv_omega

theorem Returns.ret (returns : Returns start length m m₁) :
    program.step ⟨.code [.ret], m₁⟩ =
      some ⟨.address (m.mem.read (m.regs .esp)), m₁.pop.2⟩ := by
  have huse := stackUse_le m
  have hwords : Words m.mem (m.regs .esp) [m.mem.read (m.regs .esp)] := ⟨rfl, trivial⟩
  have hread := (hwords.of_sameAbove returns.stack (by simp only [List.length_singleton]; omega)).1
  rw [← hread, ← returns.esp]
  rfl

theorem returns_plain (string : StringAt m.mem start length)
    (hargument : m.mem.read (m.regs .esp + 4) = start)
    (hapart : ∀ i ≤ length, ¬ Below (m.regs .esp) (stackUse m) (start + BitVec.ofNat 32 i))
    (hedi : m.regs .edi ≠ instrument) :
    ∃ m', program.Reaches ⟨.code (program.codeAt .strlen), m⟩ ⟨.code [.ret], m'⟩ ∧
      Returns start length m m' ∧
      ∀ r ∈ [Reg.ebp, .edi, .esi, .ebx], m'.regs r = m.regs r := by
  have huse : stackUse m = 20 := if_neg hedi
  obtain ⟨m₁, reaches₁, entered⟩ := entered_plain hedi
  obtain ⟨m₂, reaches₂, scanned, stack⟩ := entered.scanned string hargument
    (by rw [huse] at hapart; exact hapart)
  have hvalues : [m.regs .ebp, m.regs .edi, m.regs .esi, m.regs .ebx].length = 4 := rfl
  obtain ⟨m₃, reaches₃, left, restored⟩ := left_plain hvalues stack
  exact ⟨m₃, (reaches₁.trans reaches₂).trans reaches₃, left.returns scanned entered huse.symm,
    List.map_inj_left.mp restored⟩

theorem returns_instrument (string : StringAt m.mem start length)
    (hargument : m.mem.read (m.regs .esp + 4) = start)
    (hapart : ∀ i ≤ length, ¬ Below (m.regs .esp) (stackUse m) (start + BitVec.ofNat 32 i))
    (hedi : m.regs .edi = instrument) :
    ∃ m', program.Reaches ⟨.code (program.codeAt .strlen), m⟩ ⟨.code [.ret], m'⟩ ∧
      Returns start length m m' ∧
      [Reg.ebx, .esi, .edi, .ebp].map m'.regs =
        (List.range 4).map (tick (ticksOf start length)) := by
  have huse : stackUse m = 4 := if_pos hedi
  obtain ⟨m₁, reaches₁, entered, hzero⟩ := entered_instrument hedi
  obtain ⟨m₂, reaches₂, scanned, stack⟩ := entered.scanned string hargument
    (by rw [huse] at hapart; exact hapart)
  obtain ⟨m₃, reaches₃, left, hregs⟩ := left_instrument stack
  refine ⟨m₃, (reaches₁.trans reaches₂).trans reaches₃,
    left.returns scanned entered huse.symm, ?_⟩
  rw [List.map_congr_left hregs]
  simp only [List.map_cons, List.map_nil, scanned.ebx, scanned.esi, scanned.edi, scanned.ebp]
  rw [hzero .ebx (by decide), hzero .esi (by decide), hzero .edi (by decide),
    hzero .ebp (by decide)]
  simp [List.range_succ]

end Whole

def sampleEntry (edi : Word) : Machine :=
  { regs := fun r => match r with
      | .esp => 0x2000
      | .edi => edi
      | _ => 7
    flags := { carry := false, zero := false, parity := false }
    mem := fun x =>
      if 0x1001 ≤ x ∧ x < 0x1005 then 0x61
      else if x = 0x2004 then 0x01
      else if x = 0x2005 then 0x10
      else 0
    reads := [] }

theorem sampleEntry_string (edi : Word) : StringAt (sampleEntry edi).mem 0x1001 4 :=
  ⟨by simp only [sampleEntry]; decide, rfl, by decide⟩

/-- `strlen` returns the distance to the first NUL, keeps the stack, and reads the
string only in its own aligned words; without the magic value in `%edi` it keeps the
callee-save registers. -/
theorem strlen_returns_length (m : Machine) (start : Word) (length : Nat)
    (string : StringAt m.mem start length)
    (hargument : m.mem.read (m.regs .esp + 4) = start)
    (hapart : ∀ i ≤ length,
      ¬ Below (m.regs .esp) (stackUse m) (start + BitVec.ofNat 32 i)) :
    ∃ m', program.Reaches ⟨.code (program.codeAt .strlen), m⟩ ⟨.code [.ret], m'⟩ ∧
      program.step ⟨.code [.ret], m'⟩ =
        some ⟨.address (m.mem.read (m.regs .esp)), m'.pop.2⟩ ∧
      Returns start length m m' ∧
      (m.regs .edi ≠ instrument →
        ∀ r ∈ [Reg.ebx, .esi, .edi, .ebp], m'.regs r = m.regs r) := by
  by_cases hedi : m.regs .edi = instrument
  · obtain ⟨m', reaches, returns, _⟩ := returns_instrument string hargument hapart hedi
    exact ⟨m', reaches, returns.ret, returns, fun hne => absurd hedi hne⟩
  · obtain ⟨m', reaches, returns, saved⟩ := returns_plain string hargument hapart hedi
    refine ⟨m', reaches, returns.ret, returns, fun _ r hr => saved r ?_⟩
    revert r
    decide

theorem strlen_returns_length_sample :
    ∃ m', program.Reaches ⟨.code (program.codeAt .strlen), sampleEntry 0⟩ ⟨.code [.ret], m'⟩ ∧
      program.step ⟨.code [.ret], m'⟩ = some ⟨.address 0, m'.pop.2⟩ ∧
      Returns 0x1001 4 (sampleEntry 0) m' ∧
      ((sampleEntry 0).regs .edi ≠ instrument →
        ∀ r ∈ [Reg.ebx, .esi, .edi, .ebp], m'.regs r = (sampleEntry 0).regs r) :=
  strlen_returns_length (sampleEntry 0) 0x1001 4 (sampleEntry_string 0) rfl (by decide)

/-- Entered with the magic value in `%edi`, `strlen` leaves in the four registers how
many of the bytes of the last word it tested. -/
theorem strlen_counts_tests (m : Machine) (start : Word) (length : Nat)
    (string : StringAt m.mem start length)
    (hargument : m.mem.read (m.regs .esp + 4) = start)
    (hapart : ∀ i ≤ length,
      ¬ Below (m.regs .esp) (stackUse m) (start + BitVec.ofNat 32 i))
    (hedi : m.regs .edi = instrument) :
    ∃ m', program.Reaches ⟨.code (program.codeAt .strlen), m⟩ ⟨.code [.ret], m'⟩ ∧
      ([Reg.ebx, .esi, .edi, .ebp].map m'.regs = [0, 0, 0, 0] ↔
        start.toNat + length < alignedFrom start) ∧
      (alignedFrom start ≤ start.toNat + length →
        [Reg.ebx, .esi, .edi, .ebp].map m'.regs =
          (List.range 4).map fun i => if i ≤ (start.toNat + length) % 4 then 1 else 0) := by
  obtain ⟨m', reaches, _, counts⟩ := returns_instrument string hargument hapart hedi
  have hafter : alignedFrom start ≤ start.toNat + length →
      ticksOf start length = (start.toNat + length) % 4 + 1 :=
    fun hle => if_neg (Nat.not_lt.mpr hle)
  refine ⟨m', reaches, ⟨fun hzero => ?_, fun hbefore => ?_⟩, fun hle => ?_⟩
  · by_contra hle
    rw [counts, hafter (Nat.not_lt.mp hle)] at hzero
    have hfirst := (List.cons.inj hzero).1
    rw [tick, if_pos (Nat.succ_pos _)] at hfirst
    cases hfirst
  · have hticks : ticksOf start length = 0 := if_pos hbefore
    rw [counts, hticks]
    rfl
  · rw [counts, hafter hle]
    refine List.map_congr_left fun i _ => ?_
    simp only [tick, Nat.lt_succ_iff]

theorem strlen_counts_tests_sample :
    ∃ m', program.Reaches ⟨.code (program.codeAt .strlen), sampleEntry instrument⟩
        ⟨.code [.ret], m'⟩ ∧
      [Reg.ebx, .esi, .edi, .ebp].map m'.regs = [1, 1, 0, 0] := by
  obtain ⟨m', reaches, _, counts⟩ := strlen_counts_tests (sampleEntry instrument) 0x1001 4
    (sampleEntry_string instrument) rfl (by decide) rfl
  exact ⟨m', reaches, counts (by decide)⟩

end RrWorkbench.Strlen
