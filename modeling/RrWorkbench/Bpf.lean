import Mathlib.Data.List.Basic

namespace RrWorkbench.Bpf

/-! The classic BPF machine, as far as filters need it that load words, compare them
with constants and return, and rules for code that is put together from fragments. -/

abbrev Word : Type := BitVec 32

structure SockFilter where
  code : BitVec 16
  jt : BitVec 8
  jf : BitVec 8
  k : Word
  deriving DecidableEq, Repr

def bpfStmt (code : BitVec 16) (k : Word) : SockFilter := ⟨code, 0, 0, k⟩

def bpfJump (code : BitVec 16) (k : Word) (jt jf : BitVec 8) : SockFilter := ⟨code, jt, jf, k⟩

def bpfLd : BitVec 16 := 0x00

def bpfJmp : BitVec 16 := 0x05

def bpfRet : BitVec 16 := 0x06

def bpfW : BitVec 16 := 0x00

def bpfAbs : BitVec 16 := 0x20

def bpfJeq : BitVec 16 := 0x10

def bpfK : BitVec 16 := 0x00

inductive Insn
  | load (offset : Word)
  | jumpIfEq (k : Word) (jt jf : Nat)
  | ret (k : Word)
  deriving DecidableEq, Repr

/-- The other operations of the machine are left out. -/
def SockFilter.decode (f : SockFilter) : Option Insn :=
  if f.code = bpfLd + bpfW + bpfAbs then some (.load f.k)
  else if f.code = bpfJmp + bpfJeq + bpfK then
    some (.jumpIfEq f.k f.jt.toNat f.jf.toNat)
  else if f.code = bpfRet + bpfK then some (.ret f.k)
  else none

theorem decode_load (offset : Word) :
    (bpfStmt (bpfLd + bpfW + bpfAbs) offset).decode = some (.load offset) := rfl

theorem decode_jumpIfEq (k : Word) (jt jf : BitVec 8) :
    (bpfJump (bpfJmp + bpfJeq + bpfK) k jt jf).decode =
      some (.jumpIfEq k jt.toNat jf.toNat) := rfl

theorem decode_ret (k : Word) : (bpfStmt (bpfRet + bpfK) k).decode = some (.ret k) := rfl

inductive Result
  | returned (value : Word)
  | pastEnd
  | invalid
  deriving DecidableEq, Repr

structure State where
  pc : Nat
  acc : Word
  deriving DecidableEq, Repr

/-- Jumps are relative to the next instruction.  `data` is what the program examines;
it has no word at an offset that may not be loaded. -/
def step (program : List SockFilter) (data : Word → Option Word) (s : State) :
    Except Result State :=
  match program[s.pc]? with
  | none => .error .pastEnd
  | some f =>
      match f.decode with
      | some (.load offset) =>
          match data offset with
          | some w => .ok ⟨s.pc + 1, w⟩
          | none => .error .invalid
      | some (.jumpIfEq k jt jf) =>
          .ok ⟨s.pc + 1 + (if s.acc = k then jt else jf), s.acc⟩
      | some (.ret k) => .error (.returned k)
      | none => .error .invalid

def run (program : List SockFilter) (data : Word → Option Word) : Nat → State → Option Result
  | 0, _ => none
  | fuel + 1, s =>
      match step program data s with
      | .error result => some result
      | .ok next => run program data fuel next

/-! As jumps lead forward, a program can be read as the instructions that are left and
the number of them that are to be skipped. -/

def eval (data : Word → Option Word) : List SockFilter → Nat → Word → Result
  | [], _, _ => .pastEnd
  | _ :: rest, skip + 1, acc => eval data rest skip acc
  | f :: rest, 0, acc =>
      match f.decode with
      | some (.load offset) =>
          match data offset with
          | some w => eval data rest 0 w
          | none => .invalid
      | some (.jumpIfEq k jt jf) => eval data rest (if acc = k then jt else jf) acc
      | some (.ret k) => .returned k
      | none => .invalid

section Eval

variable {data : Word → Option Word} {f : SockFilter} {rest : List SockFilter} {acc : Word}

theorem eval_load {offset w : Word} (hf : f.decode = some (.load offset))
    (hw : data offset = some w) : eval data (f :: rest) 0 acc = eval data rest 0 w := by
  simp only [eval, hf, hw]

theorem eval_jumpIfEq {k : Word} {jt jf : Nat} (hf : f.decode = some (.jumpIfEq k jt jf)) :
    eval data (f :: rest) 0 acc = eval data rest (if acc = k then jt else jf) acc := by
  simp only [eval, hf]

theorem eval_ret {k : Word} (hf : f.decode = some (.ret k)) :
    eval data (f :: rest) 0 acc = .returned k := by
  simp only [eval, hf]

theorem eval_skip (code : List SockFilter) (skip : Nat) :
    eval data code skip acc = eval data (code.drop skip) 0 acc := by
  induction code generalizing skip with
  | nil => simp [eval]
  | cons f rest ih =>
      cases skip with
      | zero => rfl
      | succ skip => exact ih skip

/-- The machine does what the reading says, and needs no more steps than there are
instructions left. -/
theorem run_eq_eval (program : List SockFilter) (fuel : Nat) (s : State)
    (hfuel : program.length - s.pc < fuel) :
    run program data fuel s = some (eval data (program.drop s.pc) 0 s.acc) := by
  induction fuel generalizing s with
  | zero => exact absurd hfuel (Nat.not_lt_zero _)
  | succ fuel ih =>
      cases hf : program[s.pc]? with
      | none =>
          rw [List.drop_eq_nil_of_le (List.getElem?_eq_none_iff.mp hf)]
          simp only [run, step, hf, eval]
      | some f =>
          obtain ⟨hlt, hget⟩ := List.getElem?_eq_some_iff.mp hf
          have hdrop : program.drop s.pc = f :: program.drop (s.pc + 1) := by
            rw [List.drop_eq_getElem_cons hlt, hget]
          -- a step goes forward
          have hnext : ∀ skip acc, run program data fuel ⟨s.pc + 1 + skip, acc⟩ =
              some (eval data (program.drop (s.pc + 1)) skip acc) := by
            intro skip acc
            rw [ih ⟨s.pc + 1 + skip, acc⟩ (by simp only; omega), eval_skip _ skip,
              List.drop_drop]
          rw [hdrop]
          simp only [run, step, hf, eval]
          cases hinsn : f.decode with
          | none => rfl
          | some insn =>
              cases insn with
              | load offset =>
                  cases hw : data offset with
                  | none => simp only [hw]
                  | some w =>
                      simp only [hw]
                      exact hnext 0 w
              | jumpIfEq k jt jf => exact hnext _ _
              | ret k => rfl

end Eval

/-! Fragments.  A fragment may be left in two ways: it returns, or control falls through
to what stands behind it, whatever that is. -/

/-- Entered with `pre`, the code returns the verdict or, if there is none, falls through
with `post`. -/
def Decides (data : Word → Option Word) (pre : Word → Prop) (code : List SockFilter)
    (verdict : Option Word) (post : Word → Prop) : Prop :=
  ∀ acc, pre acc →
    match verdict with
    | some k => ∀ rest, eval data (code ++ rest) 0 acc = .returned k
    | none => ∃ acc', post acc' ∧
        ∀ rest, eval data (code ++ rest) 0 acc = eval data rest 0 acc'

section Decides

variable {data : Word → Option Word} {pre mid post : Word → Prop}
  {first second : List SockFilter} {verdict verdict' : Option Word}

theorem decides_nil (data : Word → Option Word) (pre : Word → Prop) :
    Decides data pre [] none pre :=
  fun acc hacc => ⟨acc, hacc, fun _ => rfl⟩

theorem Decides.append (h : Decides data pre first verdict mid)
    (h' : Decides data mid second verdict' post) :
    Decides data pre (first ++ second) (verdict.or verdict') post := by
  intro acc hacc
  have hfirst := h acc hacc
  cases verdict with
  | some k =>
      intro rest
      rw [List.append_assoc]
      exact hfirst (second ++ rest)
  | none =>
      obtain ⟨acc', hmid, hfalls⟩ := hfirst
      have hsecond := h' acc' hmid
      cases verdict' with
      | some k =>
          intro rest
          rw [List.append_assoc, hfalls]
          exact hsecond rest
      | none =>
          obtain ⟨acc'', hpost, hfalls'⟩ := hsecond
          refine ⟨acc'', hpost, fun rest => ?_⟩
          rw [List.append_assoc, hfalls]
          exact hfalls' rest

theorem Decides.weaken (h : Decides data pre first verdict mid)
    (hpost : ∀ acc, mid acc → post acc) : Decides data pre first verdict post := by
  intro acc hacc
  have hfirst := h acc hacc
  cases verdict with
  | some k => exact hfirst
  | none =>
      obtain ⟨acc', hmid, hfalls⟩ := hfirst
      exact ⟨acc', hpost acc' hmid, hfalls⟩

/-- Fragments that keep an invariant, one behind the other, give the verdict of the first
that has one. -/
theorem Decides.flatMap {ι : Type} {code : ι → List SockFilter} {verdict : ι → Option Word}
    (items : List ι) (h : ∀ i ∈ items, Decides data pre (code i) (verdict i) pre) :
    Decides data pre (items.flatMap code) (items.findSome? verdict) pre := by
  induction items with
  | nil => exact decides_nil data pre
  | cons i rest ih =>
      have hrest := ih fun j hj => h j (List.mem_cons_of_mem i hj)
      have hall := (h i List.mem_cons_self).append hrest
      rw [List.flatMap_cons, List.findSome?_cons]
      cases hi : verdict i with
      | none =>
          rw [hi] at hall
          exact hall
      | some k =>
          rw [hi] at hall
          exact hall

theorem Decides.run_returns {program : List SockFilter} {k : Word}
    (h : Decides data pre program (some k) post) {acc : Word} (hacc : pre acc) {fuel : Nat}
    (hfuel : program.length < fuel) :
    run program data fuel ⟨0, acc⟩ = some (.returned k) := by
  have hreturns := h acc hacc []
  rw [List.append_nil] at hreturns
  rw [run_eq_eval program fuel ⟨0, acc⟩ hfuel, List.drop_zero, hreturns]

theorem decides_load {offset w : Word} (hw : data offset = some w) (pre : Word → Prop) :
    Decides data pre [bpfStmt (bpfLd + bpfW + bpfAbs) offset] none (· = w) :=
  fun _ _ => ⟨w, rfl, fun _ => eval_load (decode_load offset) hw⟩

theorem decides_ret (data : Word → Option Word) (pre post : Word → Prop) (k : Word) :
    Decides data pre [bpfStmt (bpfRet + bpfK) k] (some k) post :=
  fun _ _ _ => eval_ret (decode_ret k)

theorem decides_jumpOver {k acc : Word} {code : List SockFilter} {jf : BitVec 8}
    (hjf : jf.toNat = code.length)
    (h : acc = k → Decides data (· = acc) code verdict (· = acc)) :
    Decides data (· = acc) (bpfJump (bpfJmp + bpfJeq + bpfK) k 0 jf :: code)
      (if acc = k then verdict else none) (· = acc) := by
  intro acc' hacc
  subst hacc
  have hjump : ∀ rest, eval data (bpfJump (bpfJmp + bpfJeq + bpfK) k 0 jf :: code ++ rest) 0
      acc' = eval data (code ++ rest) (if acc' = k then 0 else code.length) acc' := by
    intro rest
    rw [List.cons_append, eval_jumpIfEq (decode_jumpIfEq k 0 jf), hjf]
    rfl
  by_cases hk : acc' = k
  · have hcode := h hk acc' rfl
    simp only [hjump, if_pos hk]
    exact hcode
  · simp only [hjump, if_neg hk]
    refine ⟨acc', rfl, fun rest => ?_⟩
    rw [eval_skip, List.drop_left]

end Decides

/-! Programs that have been checked: they load what may be loaded, and no jump leads
past their end. -/

def checkInsn (loadable : Word → Bool) (behind : Nat) (f : SockFilter) : Bool :=
  match f.decode with
  | some (.load offset) => loadable offset
  | some (.jumpIfEq _ jt jf) => decide (jt < behind) && decide (jf < behind)
  | some (.ret _) => true
  | none => false

def check (loadable : Word → Bool) (behind : Nat) : List SockFilter → Bool
  | [] => true
  | f :: rest => checkInsn loadable (rest.length + behind) f && check loadable behind rest

def SockFilter.isRet (f : SockFilter) : Bool :=
  match f.decode with
  | some (.ret _) => true
  | _ => false

def accepts (loadable : Word → Bool) (maxInsns : Nat) (program : List SockFilter) : Bool :=
  decide (program.length ≤ maxInsns) && check loadable 0 program &&
    program.getLast?.any SockFilter.isRet

section Checked

variable {loadable : Word → Bool} {behind : Nat}

theorem check_append (first second : List SockFilter) :
    check loadable behind (first ++ second) =
      (check loadable (second.length + behind) first && check loadable behind second) := by
  induction first with
  | nil => rfl
  | cons f rest ih =>
      rw [List.cons_append, check, check, ih, List.length_append, Nat.add_assoc,
        Bool.and_assoc]

theorem checkInsn_mono {more : Nat} (hle : behind ≤ more) {f : SockFilter}
    (h : checkInsn loadable behind f = true) : checkInsn loadable more f = true := by
  unfold checkInsn at h ⊢
  split
  · rwa [‹f.decode = _›] at h
  · rw [‹f.decode = _›] at h
    simp only [Bool.and_eq_true, decide_eq_true_eq] at h ⊢
    omega
  · rfl
  · rwa [‹f.decode = _›] at h

theorem check_mono {more : Nat} (hle : behind ≤ more) {code : List SockFilter}
    (h : check loadable behind code = true) : check loadable more code = true := by
  induction code with
  | nil => rfl
  | cons f rest ih =>
      rw [check, Bool.and_eq_true] at h ⊢
      exact ⟨checkInsn_mono (by omega) h.1, ih h.2⟩

theorem check_flatMap {ι : Type} {code : ι → List SockFilter} (items : List ι)
    (h : ∀ i ∈ items, check loadable 1 (code i) = true) :
    check loadable 1 (items.flatMap code) = true := by
  induction items with
  | nil => rfl
  | cons i rest ih =>
      rw [List.flatMap_cons, check_append, Bool.and_eq_true]
      exact ⟨check_mono (by omega) (h i List.mem_cons_self),
        ih fun j hj => h j (List.mem_cons_of_mem i hj)⟩

end Checked

end RrWorkbench.Bpf
