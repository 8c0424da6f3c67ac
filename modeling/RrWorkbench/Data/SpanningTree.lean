import Mathlib.Algebra.Group.Basic
import Mathlib.Data.List.Nodup
import Mathlib.Data.Nat.Find
import Mathlib.Logic.Relation

namespace RrWorkbench.Data

/-! Undirected trees in a multigraph that is given by the end points of its
edges.  Edges are told apart by identity, so two parallel edges form a cycle, and
so does a loop. -/

section

variable {V : Type u} {E : Type v}

def Joined (source target : E → V) (edges : List E) (x y : V) : Prop :=
  ∃ e ∈ edges, (source e = x ∧ target e = y) ∨ (source e = y ∧ target e = x)

abbrev Connected (source target : E → V) (edges : List E) : V → V → Prop :=
  Relation.ReflTransGen (Joined source target edges)

/-- A cycle is an edge together with a walk between its end points that does
without it. -/
structure IsSpanningTree [DecidableEq E] (source target : E → V)
    (edges : List E) (vertex : V → Prop) (root : V) : Prop where
  spans : ∀ x, vertex x → Connected source target edges root x
  acyclic : ∀ e ∈ edges,
    ¬ Connected source target (edges.erase e) (source e) (target e)

variable {source target : E → V} {edges edges' : List E} {x y : V}

theorem Joined.symm (h : Joined source target edges x y) :
    Joined source target edges y x := by
  obtain ⟨e, member, hends⟩ := h
  exact ⟨e, member, hends.symm⟩

theorem Connected.symm (h : Connected source target edges x y) :
    Connected source target edges y x := by
  induction h with
  | refl => exact Relation.ReflTransGen.refl
  | tail _ step ih => exact ih.head step.symm

theorem not_connected_of_closed (side : V → Prop) (hx : side x) (hy : ¬ side y)
    (closed : ∀ e ∈ edges, side (source e) ↔ side (target e)) :
    ¬ Connected source target edges x y := by
  intro h
  induction h with
  | refl => exact hy hx
  | tail _ step ih =>
      obtain ⟨e, member, ⟨hsource, htarget⟩ | ⟨hsource, htarget⟩⟩ := step
      · refine ih fun hside => hy ?_
        rw [← htarget]
        exact (closed e member).mp (hsource ▸ hside)
      · refine ih fun hside => hy ?_
        rw [← hsource]
        exact (closed e member).mpr (htarget ▸ hside)

theorem not_connected_nil (hne : x ≠ y) :
    ¬ Connected source target [] x y := by
  intro h
  rcases h.cases_head with heq | ⟨_, ⟨_, member, _⟩, _⟩
  · exact hne heq
  · simp at member

theorem IsSpanningTree.nodup [DecidableEq E] {vertex : V → Prop} {root : V}
    (tree : IsSpanningTree source target edges vertex root) :
    edges.Nodup := by
  rw [List.nodup_iff_count_le_one]
  intro e
  by_contra hcount
  have member : e ∈ edges.erase e := by
    rw [← List.count_pos_iff, List.count_erase_self]
    omega
  exact tree.acyclic e (List.mem_of_mem_erase member)
    (Relation.ReflTransGen.single ⟨e, member, .inl ⟨rfl, rfl⟩⟩)

end

/-- A spanning tree hung up at its root: every other vertex has an edge up to its
parent, one level closer to the root, and every edge is one of these. -/
structure RootedTree {V : Type u} {E : Type v} (source target : E → V)
    (edges : List E) (vertex : V → Prop) (root : V) where
  depth : V → Nat
  parent : V → V
  up : V → Option E
  up_root : up root = none
  exists_up : ∀ x, vertex x → x ≠ root → ∃ e ∈ edges, up x = some e ∧
    ((source e = parent x ∧ target e = x) ∨
      (source e = x ∧ target e = parent x))
  vertex_parent : ∀ x, vertex x → x ≠ root → vertex (parent x)
  depth_parent : ∀ x, vertex x → x ≠ root → depth x = depth (parent x) + 1
  edge_up : ∀ e ∈ edges, ∃ x, vertex x ∧ x ≠ root ∧ up x = some e

namespace RootedTree

section Construction

variable {V : Type u} {E : Type v} {source target : E → V} {edges : List E}
  {vertex : V → Prop} {root : V}

private inductive Level (source target : E → V) (edges : List E) (root : V) :
    Nat → V → Prop
  | root : Level source target edges root 0 root
  | step {n : Nat} {x y : V} (before : Level source target edges root n x)
      (edge : Joined source target edges x y) :
      Level source target edges root (n + 1) y

private theorem Level.of_connected {root x : V}
    (h : Connected source target edges root x) :
    ∃ n, Level source target edges root n x := by
  induction h with
  | refl => exact ⟨0, .root⟩
  | tail _ step ih =>
      obtain ⟨n, level⟩ := ih
      exact ⟨n + 1, .step level step⟩

private theorem Level.connected {root x : V} {n : Nat}
    (level : Level source target edges root n x) :
    Connected source target edges root x := by
  induction level with
  | root => exact Relation.ReflTransGen.refl
  | step _ edge ih => exact ih.tail edge

open Classical in
private noncomputable def level (source target : E → V) (edges : List E)
    (root x : V) : Nat :=
  if h : ∃ n, Level source target edges root n x then Nat.find h else 0

private theorem level_spec {root x : V}
    (h : Connected source target edges root x) :
    Level source target edges root (level source target edges root x) x := by
  classical
  have hex := Level.of_connected h
  rw [level, dif_pos hex]
  exact Nat.find_spec hex

private theorem level_le {root x : V} {n : Nat}
    (h : Level source target edges root n x) :
    level source target edges root x ≤ n := by
  classical
  rw [level, dif_pos ⟨n, h⟩]
  exact Nat.find_min' _ h

private theorem exists_shorter {root x : V}
    (h : Connected source target edges root x) (hne : x ≠ root) :
    ∃ p e, e ∈ edges ∧
      ((source e = p ∧ target e = x) ∨ (source e = x ∧ target e = p)) ∧
      level source target edges root x =
        level source target edges root p + 1 := by
  have hlevel := level_spec h
  generalize hn : level source target edges root x = n at hlevel
  cases hlevel with
  | root => exact absurd rfl hne
  | @step n p x before edge =>
      have hp := level_le before
      have hx := level_le (Level.step (level_spec before.connected) edge)
      obtain ⟨e, member, hends⟩ := edge
      refine ⟨p, e, member, hends.imp_right fun h => ?_, by omega⟩
      exact h

/-- Every spanning tree can be hung up at its root: an edge that is not used to
go up would close a cycle through the root. -/
theorem exists_of_isSpanningTree [DecidableEq E]
    (tree : IsSpanningTree source target edges vertex root)
    (hroot : vertex root)
    (closed : ∀ e ∈ edges, vertex (source e) ∧ vertex (target e)) :
    Nonempty (RootedTree source target edges vertex root) := by
  have hup : ∀ x, ∃ pe : V × Option E, (x = root → pe.2 = none) ∧
      (vertex x → x ≠ root → ∃ e ∈ edges, pe.2 = some e ∧
        ((source e = pe.1 ∧ target e = x) ∨
          (source e = x ∧ target e = pe.1)) ∧
        level source target edges root x =
          level source target edges root pe.1 + 1) := by
    intro x
    by_cases hx : vertex x ∧ x ≠ root
    · obtain ⟨p, e, member, hends, hlevel⟩ :=
        exists_shorter (tree.spans x hx.1) hx.2
      exact ⟨(p, some e), fun h => absurd h hx.2,
        fun _ _ => ⟨e, member, rfl, hends, hlevel⟩⟩
    · exact ⟨(x, none), fun _ => rfl, fun h hne => absurd ⟨h, hne⟩ hx⟩
  choose pe hnone hsome using hup
  refine ⟨{
    depth := level source target edges root
    parent := fun x => (pe x).1
    up := fun x => (pe x).2
    up_root := hnone root rfl
    exists_up := ?_
    vertex_parent := ?_
    depth_parent := ?_
    edge_up := ?_ }⟩
  · intro x hx hne
    obtain ⟨e, member, hpe, hends, _⟩ := hsome x hx hne
    exact ⟨e, member, hpe, hends⟩
  · intro x hx hne
    obtain ⟨e, member, _, hends, _⟩ := hsome x hx hne
    rcases hends with ⟨hparent, _⟩ | ⟨_, hparent⟩
    · exact hparent ▸ (closed e member).1
    · exact hparent ▸ (closed e member).2
  · intro x hx hne
    obtain ⟨_, _, _, _, hlevel⟩ := hsome x hx hne
    exact hlevel
  · intro e member
    by_contra hunused
    have climb : ∀ n x, vertex x → level source target edges root x = n →
        Connected source target (edges.erase e) root x := by
      intro n
      induction n with
      | zero =>
          intro x hx hn
          by_cases hne : x = root
          · subst hne
            exact Relation.ReflTransGen.refl
          · obtain ⟨_, _, _, _, hlevel⟩ := hsome x hx hne
            omega
      | succ n ih =>
          intro x hx hn
          by_cases hne : x = root
          · subst hne
            exact Relation.ReflTransGen.refl
          · obtain ⟨f, hf, hpe, hends, hlevel⟩ := hsome x hx hne
            have hfe : f ≠ e := by
              rintro rfl
              exact hunused ⟨x, hx, hne, hpe⟩
            have hparent : vertex (pe x).1 := by
              rcases hends with ⟨hparent, _⟩ | ⟨_, hparent⟩
              · exact hparent ▸ (closed f hf).1
              · exact hparent ▸ (closed f hf).2
            exact (ih _ hparent (by omega)).tail
              ⟨f, (List.mem_erase_of_ne hfe).mpr hf, hends⟩
    obtain ⟨hsource, htarget⟩ := closed e member
    exact tree.acyclic e member
      (Connected.symm (climb _ _ hsource rfl) |>.trans (climb _ _ htarget rfl))

end Construction

variable {V : Type u} {E : Type v} {source target : E → V} {edges : List E}
  {vertex : V → Prop} {root : V}

theorem parent_ne (tree : RootedTree source target edges vertex root) {x : V}
    (hx : vertex x) (hne : x ≠ root) : tree.parent x ≠ x := by
  intro heq
  have := tree.depth_parent x hx hne
  rw [heq] at this
  omega

theorem up_injective (tree : RootedTree source target edges vertex root)
    {x y : V} {e : E} (hx : vertex x) (hxroot : x ≠ root) (hy : vertex y)
    (hyroot : y ≠ root) (hupx : tree.up x = some e) (hupy : tree.up y = some e) :
    x = y := by
  obtain ⟨f, _, hf, hendsx⟩ := tree.exists_up x hx hxroot
  obtain ⟨g, _, hg, hendsy⟩ := tree.exists_up y hy hyroot
  cases hf.symm.trans hupx
  cases hg.symm.trans hupy
  -- otherwise each of the two would be the parent of the other
  have hcrossed : tree.parent x = y → tree.parent y = x → False := by
    intro hxy hyx
    have hdepthx := tree.depth_parent x hx hxroot
    have hdepthy := tree.depth_parent y hy hyroot
    rw [hxy] at hdepthx
    rw [hyx] at hdepthy
    omega
  rcases hendsx with ⟨hsx, htx⟩ | ⟨hsx, htx⟩
  · rcases hendsy with ⟨hsy, hty⟩ | ⟨hsy, hty⟩
    · exact htx.symm.trans hty
    · exact (hcrossed (hsx.symm.trans hsy) (hty.symm.trans htx)).elim
  · rcases hendsy with ⟨hsy, hty⟩ | ⟨hsy, hty⟩
    · exact (hcrossed (htx.symm.trans hty) (hsy.symm.trans hsx)).elim
    · exact hsx.symm.trans hsy

/-- The vertex below an edge, seen from one of its ends that does not use the edge
to go up. -/
theorem exists_child (tree : RootedTree source target edges vertex root)
    {v : V} {e : E} (member : e ∈ edges) (hup : tree.up v ≠ some e)
    (hend : v = source e ∨ v = target e) :
    ∃ child, vertex child ∧ child ≠ root ∧ tree.up child = some e ∧
      tree.parent child = v ∧
      ((source e = v ∧ target e = child) ∨
        (source e = child ∧ target e = v)) := by
  obtain ⟨child, hchild, hne, hupChild⟩ := tree.edge_up e member
  obtain ⟨f, _, hupChild', hends⟩ := tree.exists_up child hchild hne
  have heq : f = e := Option.some.inj (hupChild'.symm.trans hupChild)
  subst heq
  have hv : v ≠ child := by
    rintro rfl
    exact hup hupChild
  refine ⟨child, hchild, hne, hupChild, ?_⟩
  rcases hends with ⟨hsource, htarget⟩ | ⟨hsource, htarget⟩
  · rcases hend with rfl | rfl
    · exact ⟨hsource.symm, .inl ⟨rfl, htarget⟩⟩
    · exact absurd htarget hv
  · rcases hend with rfl | rfl
    · exact absurd hsource hv
    · exact ⟨htarget.symm, .inr ⟨hsource, rfl⟩⟩

/-! Subtrees. -/

inductive Under (tree : RootedTree source target edges vertex root) (v : V) :
    V → Prop
  | self : Under tree v v
  | child {x : V} (hx : vertex x) (hne : x ≠ root)
      (before : Under tree v (tree.parent x)) : Under tree v x

variable {tree : RootedTree source target edges vertex root}

theorem Under.depth_le {v x : V} (h : tree.Under v x) :
    tree.depth v ≤ tree.depth x := by
  induction h with
  | self => exact Nat.le_refl _
  | child hx hne _ ih =>
      have := tree.depth_parent _ hx hne
      omega

theorem not_under_child (tree : RootedTree source target edges vertex root)
    {child : V} (hchild : vertex child)
    (hne : child ≠ root) : ¬ tree.Under child (tree.parent child) := by
  intro h
  have hle := h.depth_le
  have := tree.depth_parent child hchild hne
  omega

theorem Under.of_child {child x : V} (hchild : vertex child)
    (hne : child ≠ root) (h : tree.Under child x) :
    tree.Under (tree.parent child) x := by
  induction h with
  | self => exact .child hchild hne .self
  | child hx hne' _ ih => exact .child hx hne' ih

theorem Under.exists_child {v x : V} (h : tree.Under v x) (hx : x ≠ v) :
    ∃ child, vertex child ∧ child ≠ root ∧ tree.parent child = v ∧
      tree.Under child x := by
  induction h with
  | self => exact absurd rfl hx
  | @child x hvertex hne before ih =>
      by_cases hparent : tree.parent x = v
      · exact ⟨x, hvertex, hne, hparent, .self⟩
      · obtain ⟨child, hchild, hchildNe, heq, hunder⟩ := ih hparent
        exact ⟨child, hchild, hchildNe, heq, .child hvertex hne hunder⟩

theorem Under.child_unique {first second x : V}
    (hfirst : vertex first) (hfirstNe : first ≠ root)
    (hsecond : vertex second) (hsecondNe : second ≠ root)
    (hparent : tree.parent first = tree.parent second)
    (underFirst : tree.Under first x) (underSecond : tree.Under second x) :
    first = second := by
  induction underFirst with
  | self =>
      cases underSecond with
      | self => rfl
      | child _ _ before =>
          rw [hparent] at before
          exact absurd before (tree.not_under_child hsecond hsecondNe)
  | @child x hx hne before ih =>
      cases underSecond with
      | self =>
          rw [← hparent] at before
          exact absurd before (tree.not_under_child hfirst hfirstNe)
      | child _ _ before' => exact ih before'

theorem under_root (tree : RootedTree source target edges vertex root) {x : V}
    (hx : vertex x) : tree.Under root x := by
  generalize hn : tree.depth x = n
  induction n generalizing x with
  | zero =>
      by_cases hne : x = root
      · subst hne
        exact .self
      · have := tree.depth_parent x hx hne
        omega
  | succ n ih =>
      by_cases hne : x = root
      · subst hne
        exact .self
      · have := tree.depth_parent x hx hne
        exact .child hx hne (ih (tree.vertex_parent x hx hne) (by omega))

/-! Potentials: the sum of the edge values on the way down from the root, an edge
that is passed against its direction counting negatively. -/

section Potential

variable {G : Type w} [AddCommGroup G] [DecidableEq V]

def potentialAt (tree : RootedTree source target edges vertex root)
    (value : E → G) : Nat → V → G
  | 0, _ => 0
  | n + 1, x =>
      match tree.up x with
      | none => 0
      | some e =>
          if target e = x then tree.potentialAt value n (tree.parent x) + value e
          else tree.potentialAt value n (tree.parent x) - value e

def potential (tree : RootedTree source target edges vertex root)
    (value : E → G) (x : V) : G :=
  tree.potentialAt value (tree.depth x) x

@[simp] theorem potential_root
    (tree : RootedTree source target edges vertex root) (value : E → G) :
    tree.potential value root = 0 := by
  unfold potential
  cases tree.depth root with
  | zero => rfl
  | succ n => simp [potentialAt, tree.up_root]

theorem potential_up (tree : RootedTree source target edges vertex root)
    (value : E → G) {x : V} {e : E} (hx : vertex x) (hne : x ≠ root)
    (hup : tree.up x = some e) :
    tree.potential value x =
      if target e = x then tree.potential value (tree.parent x) + value e
      else tree.potential value (tree.parent x) - value e := by
  rw [potential, tree.depth_parent x hx hne, potentialAt, hup]
  rfl

/-- Across every tree edge the potential rises by the value of the edge. -/
theorem potential_edge (tree : RootedTree source target edges vertex root)
    (value : E → G) {e : E} (member : e ∈ edges) :
    tree.potential value (target e) =
      tree.potential value (source e) + value e := by
  obtain ⟨x, hx, hne, hup⟩ := tree.edge_up e member
  obtain ⟨f, _, hup', hends⟩ := tree.exists_up x hx hne
  have heq : f = e := Option.some.inj (hup'.symm.trans hup)
  subst heq
  have hpotential := tree.potential_up value hx hne hup
  rcases hends with ⟨hsource, htarget⟩ | ⟨hsource, htarget⟩
  · rw [if_pos htarget] at hpotential
    rw [htarget, hsource, hpotential]
  · have hnot : target f ≠ x := by
      rw [htarget]
      exact tree.parent_ne hx hne
    rw [if_neg hnot] at hpotential
    rw [htarget, hsource, hpotential, sub_add_cancel]

end Potential

end RootedTree

end RrWorkbench.Data
