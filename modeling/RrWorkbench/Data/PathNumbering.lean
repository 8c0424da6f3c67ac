import Mathlib.Algebra.BigOperators.Group.List.Basic
import Mathlib.Algebra.Ring.Int.Defs
import RrWorkbench.Data.EdgePath

namespace RrWorkbench.Data

/-! Numbers for the paths of an acyclic multigraph.  The edges out of a node divide
the numbers of its paths into intervals, one behind the other; the number of a path is
the sum of where its intervals begin. -/

/-- The intervals that begin at `weight` and are `size` long lie one behind the other
from `start` to `stop`. -/
def Tiles {E : Type v} (weight : E → ℤ) (size : E → ℕ) : ℕ → List E → ℕ → Prop
  | start, [], stop => start = stop
  | start, e :: rest, stop =>
      weight e = start ∧ Tiles weight size (start + size e) rest stop

instance Tiles.decidable {E : Type v} (weight : E → ℤ) (size : E → ℕ) :
    ∀ start edges stop, Decidable (Tiles weight size start edges stop)
  | _, [], _ => inferInstanceAs (Decidable (_ = _))
  | start, e :: rest, stop =>
      have := Tiles.decidable weight size (start + size e) rest stop
      inferInstanceAs (Decidable (_ ∧ _))

section Tiles

variable {E : Type v} {weight : E → ℤ} {size : E → ℕ} {start stop : ℕ}
  {edges : List E} {e : E}

theorem Tiles.le (tiles : Tiles weight size start edges stop) : start ≤ stop := by
  induction edges generalizing start with
  | nil => exact Nat.le_of_eq tiles
  | cons e rest ih => exact Nat.le_trans (Nat.le_add_right _ _) (ih tiles.2)

theorem Tiles.bounds (tiles : Tiles weight size start edges stop) (he : e ∈ edges) :
    (start : ℤ) ≤ weight e ∧ weight e + size e ≤ stop := by
  induction edges generalizing start with
  | nil => contradiction
  | cons f rest ih =>
      obtain ⟨hweight, htail⟩ := tiles
      rcases List.mem_cons.mp he with rfl | he
      · have := htail.le
        omega
      · have := ih htail he
        omega

/-- The last interval that begins at or below a number is the one it lies in. -/
theorem Tiles.getLast?_filter (tiles : Tiles weight size start edges stop)
    (he : e ∈ edges) {number : ℤ} (hlow : weight e ≤ number)
    (hhigh : number < weight e + size e) :
    (edges.filter fun f => weight f ≤ number).getLast? = some e := by
  induction edges generalizing start with
  | nil => contradiction
  | cons f rest ih =>
      obtain ⟨hweight, htail⟩ := tiles
      rcases List.mem_cons.mp he with rfl | he
      · -- what comes behind begins above the number
        have hrest : (rest.filter fun f => weight f ≤ number) = [] := by
          refine List.filter_eq_nil_iff.mpr fun f hf => ?_
          have := htail.bounds hf
          simp only [decide_eq_true_eq]
          omega
        rw [List.filter_cons_of_pos (by simpa using hlow), hrest]
        rfl
      · have hlast := ih htail he
        rw [List.filter_cons]
        split
        · rw [List.getLast?_cons, hlast]
          rfl
        · exact hlast

end Tiles

section Numbering

variable {V : Type u} {E : Type v}

def pathSum (weight : E → ℤ) (path : List E) : ℤ :=
  (path.map weight).sum

@[simp] theorem pathSum_nil (weight : E → ℤ) : pathSum weight [] = 0 := rfl

@[simp] theorem pathSum_cons (weight : E → ℤ) (e : E) (path : List E) :
    pathSum weight (e :: path) = weight e + pathSum weight path := by
  simp [pathSum]

/-- `count x` paths lead from `x` to `exit`, and the edges `out x` divide them. -/
structure PathNumbering (source target : E → V) (allowed : E → Prop) (exit : V)
    (out : V → List E) (weight : E → ℤ) (count : V → ℕ) : Prop where
  mem_out : ∀ e, allowed e → e ∈ out (source e)
  source_ne : ∀ e, allowed e → source e ≠ exit
  count_exit : count exit = 1
  tiles : ∀ e, allowed e →
    Tiles weight (fun f => count (target f)) 0 (out (source e)) (count (source e))

section Acyclic

variable {source target : E → V} {allowed : E → Prop} {x y : V} {path : List E}
  {rank : V → ℕ}

theorem EdgePath.rank_source_le
    (hrank : ∀ e, allowed e → rank (target e) < rank (source e))
    (hpath : EdgePath source target allowed x path y) :
    ∀ e ∈ path, rank (source e) ≤ rank x := by
  induction hpath with
  | nil x => simp
  | cons head _ ih =>
      intro f hf
      rcases List.mem_cons.mp hf with rfl | hf
      · exact Nat.le_refl _
      · exact Nat.le_trans (ih f hf) (Nat.le_of_lt (hrank _ head))

theorem EdgePath.nodup_sources
    (hrank : ∀ e, allowed e → rank (target e) < rank (source e))
    (hpath : EdgePath source target allowed x path y) : (path.map source).Nodup := by
  induction hpath with
  | nil x => exact List.nodup_nil
  | @cons e path y head tail ih =>
      refine List.nodup_cons.mpr ⟨fun hmem => ?_, ih⟩
      obtain ⟨f, hf, hsource⟩ := List.mem_map.mp hmem
      have hle := tail.rank_source_le hrank f hf
      have hlt := hrank e head
      rw [hsource] at hle
      omega

end Acyclic

def pathOfNumber [DecidableEq V] (target : E → V) (exit : V) (out : V → List E)
    (weight : E → ℤ) : ℕ → V → ℤ → Option (List E)
  | 0, _, _ => none
  | fuel + 1, x, number =>
      if x = exit then some []
      else
        ((out x).filter fun e => weight e ≤ number).getLast?.bind fun e =>
          (pathOfNumber target exit out weight fuel (target e)
            (number - weight e)).map (e :: ·)

namespace PathNumbering

variable {source target : E → V} {allowed : E → Prop} {exit x : V}
  {out : V → List E} {weight : E → ℤ} {count : V → ℕ} {path : List E}

theorem pathSum_bounds
    (numbering : PathNumbering source target allowed exit out weight count)
    (hpath : EdgePath source target allowed x path exit) :
    0 ≤ pathSum weight path ∧ pathSum weight path < count x := by
  induction path generalizing x with
  | nil =>
      rw [EdgePath.nil_iff.mp hpath, numbering.count_exit, pathSum_nil]
      decide
  | cons e path ih =>
      obtain ⟨he, rfl, htail⟩ := EdgePath.cons_iff.mp hpath
      have hbounds := (numbering.tiles e he).bounds (numbering.mem_out e he)
      have := ih htail
      rw [pathSum_cons]
      omega

/-- The number of a path gives the path back. -/
theorem pathOfNumber_pathSum [DecidableEq V]
    (numbering : PathNumbering source target allowed exit out weight count)
    (hpath : EdgePath source target allowed x path exit) {fuel : ℕ}
    (hfuel : path.length < fuel) :
    pathOfNumber target exit out weight fuel x (pathSum weight path) = some path := by
  induction path generalizing x fuel with
  | nil =>
      obtain ⟨fuel, rfl⟩ := Nat.exists_eq_add_one_of_ne_zero (Nat.ne_zero_of_lt hfuel)
      rw [pathOfNumber, if_pos (EdgePath.nil_iff.mp hpath)]
  | cons e path ih =>
      obtain ⟨fuel, rfl⟩ := Nat.exists_eq_add_one_of_ne_zero (Nat.ne_zero_of_lt hfuel)
      obtain ⟨he, rfl, htail⟩ := EdgePath.cons_iff.mp hpath
      have hbounds := numbering.pathSum_bounds htail
      have hlow : weight e ≤ weight e + pathSum weight path := by omega
      have hlast := (numbering.tiles e he).getLast?_filter (numbering.mem_out e he)
        hlow (by omega)
      rw [pathSum_cons, pathOfNumber, if_neg (numbering.source_ne e he), hlast,
        Option.bind_some, add_sub_cancel_left, ih htail (Nat.lt_of_succ_lt_succ hfuel),
        Option.map_some]

end PathNumbering

end Numbering

end RrWorkbench.Data
