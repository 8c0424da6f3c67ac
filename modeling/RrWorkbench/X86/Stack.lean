import RrWorkbench.X86.Assembly

namespace RrWorkbench.X86

open Memory

/-! Saving and restoring registers on the stack, and functions of the C calling
convention. -/

namespace Machine

def Stack (m : Machine) (words : List Word) : Prop := Words m.mem (m.regs .esp) words

section Fields

variable (m : Machine) (r : Reg) (v : Word)

@[simp] theorem set_regs : (m.set r v).regs = Function.update m.regs r v := rfl
@[simp] theorem set_mem : (m.set r v).mem = m.mem := rfl
@[simp] theorem set_flags : (m.set r v).flags = m.flags := rfl
@[simp] theorem set_reads : (m.set r v).reads = m.reads := rfl
@[simp] theorem setFlags_regs (flags : Flags) : (m.setFlags flags).regs = m.regs := rfl
@[simp] theorem setFlags_mem (flags : Flags) : (m.setFlags flags).mem = m.mem := rfl
@[simp] theorem setFlags_flags (flags : Flags) : (m.setFlags flags).flags = flags := rfl
@[simp] theorem setFlags_reads (flags : Flags) : (m.setFlags flags).reads = m.reads := rfl

variable (base : Reg) (displacement : Word) (size : Nat)

@[simp] theorem reading_regs : (m.reading base displacement size).regs = m.regs := rfl
@[simp] theorem reading_mem : (m.reading base displacement size).mem = m.mem := rfl
@[simp] theorem reading_flags : (m.reading base displacement size).flags = m.flags := rfl

theorem mem_reads_reading {access : Reg × Word}
    (h : access ∈ (m.reading base displacement size).reads) :
    access ∈ m.reads ∨ ∃ i < size,
      access = (base, m.regs base + displacement + BitVec.ofNat 32 i) := by
  rcases List.mem_append.mp h with hbefore | hnew
  · exact .inl hbefore
  · obtain ⟨i, hi, rfl⟩ := List.mem_map.mp hnew
    exact .inr ⟨i, List.mem_range.mp hi, rfl⟩

theorem push_regs : (m.push v).regs = Function.update m.regs .esp (m.regs .esp - 4) := rfl

theorem pop_regs : m.pop.2.regs = Function.update m.regs .esp (m.regs .esp + 4) := rfl

end Fields

variable {m : Machine} {v : Word} {words : List Word}

theorem Stack.push (stack : m.Stack words) (hsize : 4 * words.length + 4 ≤ 2 ^ 32) :
    (m.push v).Stack (v :: words) :=
  Words.push stack hsize

theorem Stack.pop (stack : m.Stack (v :: words)) : m.pop.1 = v ∧ m.pop.2.Stack words :=
  stack

theorem Stack.reaches_ret {L : Type} [DecidableEq L] {p : Program L} {rest : List (Stmt L)}
    (stack : m.Stack (v :: words)) :
    p.Reaches ⟨.code (.ret :: rest), m⟩ ⟨.address v, m.pop.2⟩ := by
  rw [← stack.pop.1]
  exact .head rfl .refl

theorem sameAbove_push : SameAbove (m.regs .esp) 4 m.mem (m.push v).mem :=
  sameAbove_write m.mem (m.regs .esp) v

end Machine

def pushes (saved : List Reg) : List Instr := saved.map fun r => .push (.reg r)

def pops (saved : List Reg) : List Instr := saved.map .pop

structure Pushed (m m' : Machine) (saved : List Reg) (words : List Word) : Prop where
  stack : m'.Stack (saved.reverse.map m.regs ++ words)
  esp : m'.regs .esp = m.regs .esp - BitVec.ofNat 32 (4 * saved.length)
  regs : ∀ r, r ≠ .esp → m'.regs r = m.regs r
  mem : SameAbove (m.regs .esp) (4 * saved.length) m.mem m'.mem
  flags : m'.flags = m.flags
  reads : m'.reads = m.reads

theorem pushed (saved : List Reg) (hesp : .esp ∉ saved) {m : Machine} {words : List Word}
    (stack : m.Stack words) (hsize : 4 * (saved.length + words.length) < 2 ^ 32) :
    Pushed m (Instr.execAll (pushes saved) m) saved words := by
  induction saved generalizing m words with
  | nil => exact ⟨stack, (BitVec.sub_zero _).symm, fun _ _ => rfl, .refl, rfl, rfl⟩
  | cons r saved ih =>
      simp only [List.length_cons, List.mem_cons, not_or] at hsize hesp
      have hregs : ∀ r', r' ≠ .esp → (m.push (m.regs r)).regs r' = m.regs r' :=
        fun r' hr' => Function.update_of_ne hr' _ _
      have hnext : (m.push (m.regs r)).regs .esp = m.regs .esp - 4 := by
        rw [Machine.push_regs, Function.update_self]
      have rest := ih hesp.2 (stack.push (v := m.regs r) (by omega))
        (by simp only [List.length_cons]; omega)
      have hmap : saved.reverse.map (m.push (m.regs r)).regs = saved.reverse.map m.regs :=
        List.map_congr_left fun r' hr' => hregs r' fun heq =>
          hesp.2 (heq ▸ List.mem_reverse.mp hr')
      refine ⟨?_, ?_, fun r' hr' => (rest.regs r' hr').trans (hregs r' hr'), ?_,
        rest.flags, rest.reads⟩
      · have hstack := rest.stack
        rw [hmap] at hstack
        rw [List.reverse_cons, List.map_append, List.append_assoc]
        exact hstack
      · refine rest.esp.trans ?_
        rw [hnext, List.length_cons]
        bv_omega
      · have hrest := rest.mem
        rw [hnext] at hrest
        rw [List.length_cons, Nat.mul_add, Nat.add_comm]
        exact (Machine.sameAbove_push.mono (by omega)).trans (hrest.lower 4 (by omega))

def Machine.AtTop (m : Machine) (size : Nat) (access : Reg × Word) : Prop :=
  access.1 = .esp ∧ (access.2 - m.regs .esp).toNat < size

theorem Machine.mem_reads_pop {m : Machine} {access : Reg × Word}
    (h : access ∈ m.pop.2.reads) : access ∈ m.reads ∨ m.AtTop 4 access := by
  rcases Machine.mem_reads_reading m .esp 0 4 h with hbefore | ⟨i, hi, rfl⟩
  · exact .inl hbefore
  · refine .inr ⟨rfl, ?_⟩
    simp only
    bv_omega

structure Popped (m m' : Machine) (saved : List Reg) (values words : List Word) : Prop where
  stack : m'.Stack words
  esp : m'.regs .esp = m.regs .esp + BitVec.ofNat 32 (4 * saved.length)
  restored : saved.map m'.regs = values
  regs : ∀ r, r ≠ .esp → r ∉ saved → m'.regs r = m.regs r
  mem : m'.mem = m.mem
  reads : ∀ access ∈ m'.reads, access ∈ m.reads ∨ m.AtTop (4 * saved.length) access

theorem popped (saved : List Reg) (hesp : .esp ∉ saved) (nodup : saved.Nodup) {m : Machine}
    {values words : List Word} (hlength : values.length = saved.length)
    (hsize : 4 * saved.length < 2 ^ 32) (stack : m.Stack (values ++ words)) :
    Popped m (Instr.execAll (pops saved) m) saved values words := by
  induction saved generalizing m values with
  | nil =>
      obtain rfl := List.eq_nil_of_length_eq_zero hlength
      exact ⟨stack, (BitVec.add_zero _).symm, rfl, fun _ _ _ => rfl, rfl,
        fun _ hbefore => .inl hbefore⟩
  | cons r saved ih =>
      cases values with
      | nil => cases hlength
      | cons v values =>
          simp only [List.length_cons, List.mem_cons, not_or] at hlength hesp hsize
          obtain ⟨hr, nodup⟩ := List.nodup_cons.mp nodup
          have hnext : ((Instr.pop r).exec m).regs .esp = m.regs .esp + 4 := by
            simp [Instr.exec, Machine.pop, hesp.1]
          have hstack : ((Instr.pop r).exec m).Stack (values ++ words) := by
            rw [Machine.Stack, hnext]
            exact stack.2
          have rest := ih hesp.2 nodup (Nat.succ.inj hlength) (by omega) hstack
          have hvalue : ((Instr.pop r).exec m).regs r = v := by
            simp only [Instr.exec, Machine.set_regs, Function.update_self]
            exact stack.1
          refine ⟨rest.stack, ?_, ?_, fun r' hr' hmem => ?_, rest.mem, fun access haccess => ?_⟩
          · refine rest.esp.trans ?_
            rw [hnext, List.length_cons]
            bv_omega
          · rw [List.map_cons, List.cons_eq_cons]
            exact ⟨(rest.regs r (Ne.symm hesp.1) hr).trans hvalue, rest.restored⟩
          · rw [List.mem_cons, not_or] at hmem
            refine (rest.regs r' hr' hmem.2).trans ?_
            simp [Instr.exec, Machine.pop, Function.update_of_ne hmem.1,
              Function.update_of_ne hr']
          · rw [List.length_cons]
            rcases rest.reads access haccess with hbefore | ⟨hesp', hlt⟩
            · rcases Machine.mem_reads_pop hbefore with hbefore | ⟨hesp', hlt⟩
              · exact .inl hbefore
              · exact .inr ⟨hesp', by omega⟩
            · rw [hnext] at hlt
              refine .inr ⟨hesp', ?_⟩
              bv_omega

/-- A function of the C calling convention with `slots` words of arguments: it returns,
keeps the callee-save registers, and changes the memory only up to its arguments and for
`depth` bytes below. -/
structure Cdecl (callee : Machine → Machine) (slots depth : Nat) : Prop where
  esp : ∀ m, (callee m).regs .esp = m.regs .esp + 4
  saved : ∀ m, ∀ r ∈ [Reg.ebx, .esi, .edi, .ebp], (callee m).regs r = m.regs r
  mem : ∀ m, SameAbove (m.regs .esp + BitVec.ofNat 32 (4 + 4 * slots)) depth m.mem
    (callee m).mem

end RrWorkbench.X86
