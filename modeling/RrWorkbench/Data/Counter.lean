import Mathlib.Data.List.AList
import Mathlib.Data.List.Sort

namespace RrWorkbench.Data

/-! Counters: a finite map from items to the number of times they were counted. -/

abbrev Counter (α : Type u) : Type u := AList fun _ : α => Nat

namespace Counter

variable {α : Type u} [DecidableEq α]

def get (c : Counter α) (a : α) : Nat := (c.lookup a).getD 0

def incr (c : Counter α) (a : α) : Counter α := c.insert a (c.get a + 1)

/-- The keys in the order of their counts, the largest first; keys of equal count stay
in the order in which they are given. -/
def ranked (c : Counter α) (keys : List α) : List α :=
  keys.mergeSort fun a b => decide (c.get b ≤ c.get a)

variable {c : Counter α} {a b : α} {keys : List α}

theorem get_incr : (c.incr a).get b = c.get b + if b = a then 1 else 0 := by
  by_cases hb : b = a
  · subst hb
    simp [get, incr]
  · simp [get, incr, AList.lookup_insert_ne hb, hb]

theorem mem_incr : b ∈ c.incr a ↔ b = a ∨ b ∈ c :=
  AList.mem_insert c

theorem get_foldl_incr (items : List α) :
    (items.foldl incr c).get a = c.get a + items.count a := by
  induction items generalizing c with
  | nil => rfl
  | cons item items ih =>
      rw [List.foldl_cons, ih, get_incr, List.count_cons]
      simp only [beq_iff_eq, eq_comm (a := a)]
      omega

theorem mem_foldl_incr (items : List α) :
    a ∈ items.foldl incr c ↔ a ∈ c ∨ a ∈ items := by
  induction items generalizing c with
  | nil => simp
  | cons item items ih =>
      rw [List.foldl_cons, ih, mem_incr, List.mem_cons, or_assoc, or_left_comm]

theorem ranked_perm : (c.ranked keys).Perm keys := List.mergeSort_perm _ _

theorem pairwise_ranked : (c.ranked keys).Pairwise fun a b => c.get b ≤ c.get a := by
  have hsorted : (c.ranked keys).Pairwise fun a b => decide (c.get b ≤ c.get a) = true := by
    apply List.pairwise_mergeSort
    · intro a b d hab hbd
      simp only [decide_eq_true_eq] at *
      exact Nat.le_trans hbd hab
    · intro a b
      simp only [Bool.or_eq_true, decide_eq_true_eq]
      exact Nat.le_total _ _
  exact hsorted.imp of_decide_eq_true

end Counter

end RrWorkbench.Data
