import Mathlib.Data.List.Chain

namespace RrWorkbench.Data

/-! Directed paths in a multigraph that is given by the end points of its edges. -/

/-- The edges of `path` are allowed and lead from `x` to `y`. -/
inductive EdgePath {V : Type u} {E : Type v} (source target : E → V)
    (allowed : E → Prop) : V → List E → V → Prop
  | nil (x : V) : EdgePath source target allowed x [] x
  | cons {e : E} {path : List E} {y : V} (head : allowed e)
      (tail : EdgePath source target allowed (target e) path y) :
      EdgePath source target allowed (source e) (e :: path) y

namespace EdgePath

variable {V : Type u} {E : Type v} {source target : E → V}
  {allowed : E → Prop} {x y z : V} {path : List E}

theorem cons_iff {e : E} :
    EdgePath source target allowed x (e :: path) y ↔
      allowed e ∧ source e = x ∧
        EdgePath source target allowed (target e) path y := by
  constructor
  · intro h
    cases h with
    | cons head tail => exact ⟨head, rfl, tail⟩
  · rintro ⟨head, rfl, tail⟩
    exact .cons head tail

theorem nil_iff : EdgePath source target allowed x [] y ↔ x = y := by
  constructor
  · intro h
    cases h
    rfl
  · rintro rfl
    exact .nil x

theorem append {rest : List E} (first : EdgePath source target allowed x path y)
    (second : EdgePath source target allowed y rest z) :
    EdgePath source target allowed x (path ++ rest) z := by
  induction first with
  | nil x => exact second
  | cons head _ ih => exact .cons head (ih second)

theorem allowed_of_mem (h : EdgePath source target allowed x path y) :
    ∀ e ∈ path, allowed e := by
  induction h with
  | nil x => simp
  | cons head _ ih =>
      intro e member
      rcases List.mem_cons.mp member with rfl | hrest
      · exact head
      · exact ih e hrest

theorem mono {allowed' : E → Prop}
    (h : EdgePath source target allowed x path y)
    (himp : ∀ e, allowed e → allowed' e) :
    EdgePath source target allowed' x path y := by
  induction h with
  | nil x => exact .nil x
  | cons head _ ih => exact .cons (himp _ head) ih

/-- Every edge of a path may be replaced by a path between the same nodes. -/
theorem flatMap {source' target' : E → V} {allowed' : E → Prop} {replace : E → List E}
    (h : EdgePath source target allowed x path y)
    (hreplace : ∀ e, allowed e →
      EdgePath source' target' allowed' (source e) (replace e) (target e)) :
    EdgePath source' target' allowed' x (path.flatMap replace) y := by
  induction h with
  | nil x => exact .nil x
  | cons head _ ih => exact (hreplace _ head).append ih

theorem isChain (h : EdgePath source target allowed x path y) :
    List.IsChain
      (fun e f => target e = source f ∧ allowed e ∧ allowed f) path := by
  induction h with
  | nil x => exact .nil
  | @cons e rest y head tail ih =>
      cases rest with
      | nil => exact .singleton e
      | cons f rest =>
          obtain ⟨hf, hsource, _⟩ := cons_iff.mp tail
          exact List.isChain_cons_cons.mpr ⟨⟨hsource.symm, head, hf⟩, ih⟩

theorem target_getLast (h : EdgePath source target allowed x path y)
    (hne : path ≠ []) : target (path.getLast hne) = y := by
  induction h with
  | nil x => exact absurd rfl hne
  | @cons e rest y head tail ih =>
      cases rest with
      | nil => exact nil_iff.mp tail
      | cons f rest => simpa using ih (by simp)

theorem cases_last (h : EdgePath source target allowed x path y) :
    (path = [] ∧ x = y) ∨
      ∃ rest f, path = rest ++ [f] ∧ allowed f ∧ target f = y ∧
        EdgePath source target allowed x rest (source f) := by
  induction h with
  | nil x => exact .inl ⟨rfl, rfl⟩
  | @cons e path y head tail ih =>
      right
      rcases ih with ⟨rfl, hend⟩ | ⟨rest, f, rfl, hallowed, hend, hrest⟩
      · exact ⟨[], e, rfl, head, hend, .nil _⟩
      · exact ⟨e :: rest, f, rfl, hallowed, hend, .cons head hrest⟩

/-- Following the list of edges decides whether it is a path. -/
instance decidable [DecidableEq V] [DecidablePred allowed] :
    ∀ (x : V) (path : List E) (y : V),
      Decidable (EdgePath source target allowed x path y)
  | _, [], _ => decidable_of_iff _ nil_iff.symm
  | _, e :: path, y =>
      have := decidable (target e) path y
      decidable_of_iff _ cons_iff.symm

end EdgePath

end RrWorkbench.Data
