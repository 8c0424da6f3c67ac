import Mathlib.Logic.Relation
import RrWorkbench.X86.Memory

namespace RrWorkbench.X86

/-! A subset of the IA-32 instructions as assembly text: sections that begin at a label
and run into the next one.  Operands are written with the destination first.  Of the
flags only those that some condition reads are there. -/

inductive Reg
  | eax | ecx | edx | ebx | esp | ebp | esi | edi
  deriving DecidableEq, Repr

structure Flags where
  carry : Bool
  zero : Bool
  parity : Bool
  deriving DecidableEq, Repr

/-- `reads` are the addresses of the bytes that were read from memory, in order, each
with the register that it was reached through. -/
structure Machine where
  regs : Reg → Word
  flags : Flags
  mem : Memory
  reads : List (Reg × Word)

inductive Operand
  | imm (v : Word)
  | reg (r : Reg)
  | mem (base : Reg) (displacement : Word)
  deriving DecidableEq, Repr

/-- `low` and `high` are the two low bytes of a register, such as `%cl` and `%ch`. -/
inductive ByteOperand
  | imm (v : Byte)
  | low (r : Reg)
  | high (r : Reg)
  | mem (base : Reg) (displacement : Word)
  deriving DecidableEq, Repr

inductive AluOp
  | add | sub | and | xor
  deriving DecidableEq, Repr

inductive Instr
  | mov (dst : Reg) (src : Operand)
  | alu (op : AluOp) (dst : Reg) (src : Operand)
  | cmp (dst : Reg) (src : Operand)
  | cmpb (dst src : ByteOperand)
  | testb (dst src : ByteOperand)
  | inc (dst : Reg)
  | dec (dst : Reg)
  | shr (dst : Reg) (count : Nat)
  | push (src : Operand)
  | pop (dst : Reg)
  | nop
  deriving DecidableEq, Repr

def evenParity (v : Byte) : Bool :=
  (List.range 8).countP (fun i => v.getLsbD i) % 2 == 0

namespace Flags

def ofWord (carry : Bool) (v : Word) : Flags :=
  { carry := carry, zero := v == 0, parity := evenParity (v.setWidth 8) }

def ofByte (carry : Bool) (v : Byte) : Flags :=
  { carry := carry, zero := v == 0, parity := evenParity v }

end Flags

namespace AluOp

def result : AluOp → Word → Word → Word
  | .add, a, b => a + b
  | .sub, a, b => a - b
  | .and, a, b => a &&& b
  | .xor, a, b => a ^^^ b

def carry : AluOp → Word → Word → Bool
  | .add, a, b => decide (2 ^ 32 ≤ a.toNat + b.toNat)
  | .sub, a, b => decide (a.toNat < b.toNat)
  | .and, _, _ | .xor, _, _ => false

end AluOp

namespace Machine

def set (m : Machine) (r : Reg) (v : Word) : Machine :=
  { m with regs := Function.update m.regs r v }

def setFlags (m : Machine) (flags : Flags) : Machine := { m with flags := flags }

def setMem (m : Machine) (mem : Memory) : Machine := { m with mem := mem }

def reading (m : Machine) (base : Reg) (displacement : Word) (size : Nat) : Machine :=
  { m with
    reads := m.reads ++ (List.range size).map fun i =>
      (base, m.regs base + displacement + BitVec.ofNat 32 i) }

def value (m : Machine) : Operand → Word
  | .imm v => v
  | .reg r => m.regs r
  | .mem base displacement => m.mem.read (m.regs base + displacement)

def touch (m : Machine) : Operand → Machine
  | .imm _ | .reg _ => m
  | .mem base displacement => m.reading base displacement 4

def byteValue (m : Machine) : ByteOperand → Byte
  | .imm v => v
  | .low r => byteOf (m.regs r) 0
  | .high r => byteOf (m.regs r) 1
  | .mem base displacement => m.mem (m.regs base + displacement)

def touchByte (m : Machine) : ByteOperand → Machine
  | .imm _ | .low _ | .high _ => m
  | .mem base displacement => m.reading base displacement 1

def push (m : Machine) (v : Word) : Machine :=
  (m.setMem (m.mem.write (m.regs .esp - 4) v)).set .esp (m.regs .esp - 4)

def pop (m : Machine) : Word × Machine :=
  (m.mem.read (m.regs .esp), (m.reading .esp 0 4).set .esp (m.regs .esp + 4))

end Machine

namespace Instr

def exec (m : Machine) : Instr → Machine
  | .mov dst src => (m.touch src).set dst (m.value src)
  | .alu op dst src =>
      let a := m.regs dst
      let b := m.value src
      ((m.touch src).set dst (op.result a b)).setFlags
        (.ofWord (op.carry a b) (op.result a b))
  | .cmp dst src =>
      let a := m.regs dst
      let b := m.value src
      (m.touch src).setFlags (.ofWord (AluOp.sub.carry a b) (a - b))
  | .cmpb dst src =>
      let a := m.byteValue dst
      let b := m.byteValue src
      ((m.touchByte dst).touchByte src).setFlags (.ofByte (decide (a.toNat < b.toNat)) (a - b))
  | .testb dst src =>
      ((m.touchByte dst).touchByte src).setFlags
        (.ofByte false (m.byteValue dst &&& m.byteValue src))
  -- the increments leave the carry flag alone
  | .inc dst => (m.set dst (m.regs dst + 1)).setFlags (.ofWord m.flags.carry (m.regs dst + 1))
  | .dec dst => (m.set dst (m.regs dst - 1)).setFlags (.ofWord m.flags.carry (m.regs dst - 1))
  | .shr dst count =>
      let v := m.regs dst >>> count
      (m.set dst v).setFlags (.ofWord ((m.regs dst).getLsbD (count - 1)) v)
  | .push src => (m.touch src).push (m.value src)
  | .pop dst => m.pop.2.set dst m.pop.1
  | .nop => m

def execAll (instrs : List Instr) (m : Machine) : Machine := instrs.foldl exec m

theorem execAll_append (first second : List Instr) (m : Machine) :
    execAll (first ++ second) m = execAll second (execAll first m) :=
  List.foldl_append

end Instr

inductive Cond
  | e | ne | p | nc
  deriving DecidableEq, Repr

def Cond.holds (flags : Flags) : Cond → Bool
  | .e => flags.zero
  | .ne => !flags.zero
  | .p => flags.parity
  | .nc => !flags.carry

inductive Gate
  | int (vector : Byte)
  | sysenter
  deriving DecidableEq, Repr

inductive Stmt (L : Type)
  | instr (i : Instr)
  | jmp (target : L)
  | jcc (condition : Cond) (target : L)
  | jmpReg (r : Reg)
  | callReg (r : Reg)
  | ret
  | trap (gate : Gate)
  deriving DecidableEq, Repr

/-- Where control is: in the rest of the code, at an address outside of it, or in the
kernel, which returns to the rest of the code. -/
inductive Control (L : Type)
  | code (rest : List (Stmt L))
  | address (target : Word)
  | kernel (gate : Gate) (rest : List (Stmt L))
  deriving DecidableEq, Repr

/-- `text` is the code with its labels; `address` is where a rest of it is in memory;
`callee` is what the code at an address does until it returns. -/
structure Program (L : Type) where
  text : List (L × List (Stmt L))
  address : List (Stmt L) → Word
  callee : Word → Machine → Machine

structure Config (L : Type) where
  control : Control L
  machine : Machine

section Run

variable {L : Type} [DecidableEq L]

namespace Program

def codeAt (p : Program L) (label : L) : List (Stmt L) :=
  (p.text.dropWhile fun entry => decide (entry.1 ≠ label)).flatMap Prod.snd

def stepCode (p : Program L) (m : Machine) : List (Stmt L) → Option (Config L)
  | [] => none
  | .instr i :: rest => some ⟨.code rest, i.exec m⟩
  | .jmp target :: _ => some ⟨.code (p.codeAt target), m⟩
  | .jcc condition target :: rest =>
      if condition.holds m.flags then some ⟨.code (p.codeAt target), m⟩
      else some ⟨.code rest, m⟩
  | .jmpReg r :: _ => some ⟨.address (m.regs r), m⟩
  | .callReg r :: rest =>
      some ⟨.code rest, p.callee (m.regs r) (m.push (p.address rest))⟩
  | .ret :: _ => some ⟨.address m.pop.1, m.pop.2⟩
  | .trap gate :: rest => some ⟨.kernel gate rest, m⟩

def step (p : Program L) (c : Config L) : Option (Config L) :=
  match c.control with
  | .code rest => p.stepCode c.machine rest
  | .address _ | .kernel _ _ => none

def Reaches (p : Program L) : Config L → Config L → Prop :=
  Relation.ReflTransGen fun c d => p.step c = some d

variable {p : Program L} {c d e : Config L} {m : Machine} {rest : List (Stmt L)}

theorem Reaches.head (hstep : p.step c = some d) (reaches : p.Reaches d e) :
    p.Reaches c e :=
  Relation.ReflTransGen.head hstep reaches

theorem Reaches.trans (first : p.Reaches c d) (second : p.Reaches d e) : p.Reaches c e :=
  Relation.ReflTransGen.trans first second

theorem Reaches.instrs (instrs : List Instr)
    (reaches : p.Reaches ⟨.code rest, Instr.execAll instrs m⟩ d) :
    p.Reaches ⟨.code (instrs.map .instr ++ rest), m⟩ d := by
  induction instrs generalizing m with
  | nil => exact reaches
  | cons i instrs ih => exact .head rfl (ih reaches)

theorem Reaches.taken {condition : Cond} {target : L}
    (hcond : condition.holds m.flags = true)
    (reaches : p.Reaches ⟨.code (p.codeAt target), m⟩ d) :
    p.Reaches ⟨.code (.jcc condition target :: rest), m⟩ d :=
  .head (by simp [step, stepCode, hcond]) reaches

theorem Reaches.untaken {condition : Cond} {target : L}
    (hcond : condition.holds m.flags = false)
    (reaches : p.Reaches ⟨.code rest, m⟩ d) :
    p.Reaches ⟨.code (.jcc condition target :: rest), m⟩ d :=
  .head (by simp [step, stepCode, hcond]) reaches

def runToAddress (p : Program L) : Nat → Config L → Option (Word × Machine)
  | 0, _ => none
  | fuel + 1, c =>
      match c.control with
      | .address target => some (target, c.machine)
      | _ => (p.step c).bind (p.runToAddress fuel)

theorem Reaches.runToAddress {target : Word}
    (reaches : p.Reaches c ⟨.address target, m⟩) :
    ∃ bound, ∀ fuel, bound ≤ fuel → p.runToAddress fuel c = some (target, m) := by
  induction reaches using Relation.ReflTransGen.head_induction_on with
  | refl =>
      refine ⟨1, fun fuel hfuel => ?_⟩
      obtain ⟨fuel, rfl⟩ := Nat.exists_eq_add_one_of_ne_zero (Nat.ne_zero_of_lt hfuel)
      rfl
  | @head c d hstep _ ih =>
      obtain ⟨bound, hbound⟩ := ih
      refine ⟨bound + 1, fun fuel hfuel => ?_⟩
      obtain ⟨fuel, rfl⟩ := Nat.exists_eq_add_one_of_ne_zero (Nat.ne_zero_of_lt hfuel)
      rw [Program.runToAddress]
      split
      next target' hcontrol =>
        rw [step, hcontrol] at hstep
        contradiction
      next => rw [hstep, Option.bind_some, hbound fuel (by omega)]

theorem Reaches.total (first : p.Reaches c d) (second : p.Reaches c e) :
    p.Reaches d e ∨ p.Reaches e d :=
  Relation.ReflTransGen.total_of_right_unique
    (fun _ _ _ h h' => Option.some.inj (h.symm.trans h')) first second

end Program

end Run

/-! Code without labels only moves on. -/

def Config.size {L : Type} (c : Config L) : Nat :=
  match c.control with
  | .code rest => rest.length
  | .address _ | .kernel _ _ => 0

namespace Program

variable {p : Program Empty} {c d e : Config Empty}

theorem size_lt_of_step (hstep : p.step c = some d) : d.size < c.size := by
  obtain ⟨control, m⟩ := c
  cases control with
  | address target => cases hstep
  | kernel gate rest => cases hstep
  | code code =>
      cases code with
      | nil => cases hstep
      | cons stmt rest =>
          cases stmt with
          | jmp target => exact target.elim
          | jcc condition target => exact target.elim
          | instr i | callReg r =>
              cases hstep
              exact Nat.lt_succ_self rest.length
          | jmpReg r | ret | trap gate =>
              cases hstep
              exact Nat.zero_lt_succ rest.length

theorem Reaches.eq_or_size_lt (reaches : p.Reaches c d) : d = c ∨ d.size < c.size := by
  induction reaches with
  | refl => exact .inl rfl
  | tail _ hstep ih =>
      have hlt := size_lt_of_step hstep
      cases ih with
      | inl heq => exact .inr (heq ▸ hlt)
      | inr hbefore => exact .inr (Nat.lt_trans hlt hbefore)

/-- A run passes each place of the code at most once. -/
theorem Reaches.unique (first : p.Reaches c d) (second : p.Reaches c e)
    (hsize : d.size = e.size) : d = e := by
  cases first.total second with
  | inl reaches =>
      cases reaches.eq_or_size_lt with
      | inl heq => exact heq.symm
      | inr hlt => omega
  | inr reaches =>
      cases reaches.eq_or_size_lt with
      | inl heq => exact heq
      | inr hlt => omega

end Program

end RrWorkbench.X86
