import RrWorkbench.Data.SpanningTree
import RrWorkbench.PathLogging.Dag
import Mathlib.Algebra.Group.Indicator
import Mathlib.Algebra.Ring.Int.Defs
import Mathlib.Data.Finset.Lattice.Fold
import Mathlib.Order.CompletePartialOrder
import Mathlib.Tactic.Ring

namespace RrWorkbench.PathLogging

open RrWorkbench.Data

/-! `calculateChordIncrements`.  `e` is the tree edge over which the search arrived
at `v`, `none` being the null pointer of the first call. -/

namespace Dag

def calculateChordIncrementsDir (D : Dag) : Option EdgeId → EdgeId → Int
  | none, _ => 1
  | some e, f =>
      if D.source e = D.target f ∨ D.target e = D.source f then 1 else -1

def addChordIncrements (D : Dag) (weight : Int) (v : NodeId)
    (e : Option EdgeId) : Dag :=
  D.chordEdges.foldl
    (fun D f =>
      if v = D.source f ∨ v = D.target f then
        D.modifyEdge f fun edge =>
          { edge with
            increment :=
              edge.increment + D.calculateChordIncrementsDir e f * weight }
      else D)
    D

/-- The body of the first loop of the search: go on over the tree edge `f` if it
meets `v` and is not the one over which the search arrived. -/
def searchTreeEdge (dfs : Dag → Int → NodeId → Option EdgeId → Option Dag)
    (weight : Int) (v : NodeId) (e : Option EdgeId) (D : Dag) (f : EdgeId) :
    Option Dag := do
  let D ←
    if e ≠ some f ∧ v = D.target f then
      dfs D (D.calculateChordIncrementsDir e f * weight + D.weight f)
        (D.source f) (some f)
    else some D
  if e ≠ some f ∧ v = D.source f then
    dfs D (D.calculateChordIncrementsDir e f * weight + D.weight f)
      (D.target f) (some f)
  else some D

def calculateChordIncrementsDfs :
    Nat → Dag → Int → NodeId → Option EdgeId → Option Dag
  | 0, _, _, _, _ => none
  | fuel + 1, D, weight, v, e => do
      let walked ← D.treeEdges.foldlM
        (searchTreeEdge (calculateChordIncrementsDfs fuel) weight v e) D
      some (walked.addChordIncrements weight v e)

def addChordWeights (D : Dag) : Dag :=
  D.chordEdges.foldl
    (fun D f => D.modifyEdge f fun edge =>
      { edge with increment := edge.increment + edge.weight })
    D

def calculateChordIncrements (fuel : Nat) (D : Dag) : Option Dag := do
  let searched ← calculateChordIncrementsDfs fuel D 0 D.root none
  some searched.addChordWeights

/-! The passes only change increments. -/

def withIncrements (D : Dag) (increment : EdgeId → Int) : Dag :=
  { D with edge := fun e => { D.edge e with increment := increment e } }

@[simp] theorem withIncrements_self (D : Dag) :
    D.withIncrements D.increment = D := rfl

section

variable (D : Dag) (increment : EdgeId → Int)

@[simp] theorem withIncrements_source (f : EdgeId) :
    (D.withIncrements increment).source f = D.source f := rfl

@[simp] theorem withIncrements_target (f : EdgeId) :
    (D.withIncrements increment).target f = D.target f := rfl

@[simp] theorem withIncrements_weight (f : EdgeId) :
    (D.withIncrements increment).weight f = D.weight f := rfl

@[simp] theorem withIncrements_calculateChordIncrementsDir
    (e : Option EdgeId) (f : EdgeId) :
    (D.withIncrements increment).calculateChordIncrementsDir e f =
      D.calculateChordIncrementsDir e f := by
  cases e with
  | none => rfl
  | some e => rfl

end

theorem withIncrements_modifyEdge (D : Dag) (increment : EdgeId → Int)
    (f : EdgeId) (change : Edge → Int) :
    (D.withIncrements increment).modifyEdge f
        (fun edge => { edge with increment := change edge }) =
      D.withIncrements (Function.update increment f
        (change ((D.withIncrements increment).edge f))) := by
  simp only [withIncrements, modifyEdge]
  congr 1
  funext g
  by_cases hg : g = f
  · subst hg
    simp
  · simp [Function.update_of_ne hg]

theorem foldl_addIncrements (D : Dag) (chosen : EdgeId → Prop)
    [DecidablePred chosen] (amount : EdgeId → Int) (step : Dag → EdgeId → Dag)
    (hstep : ∀ increment f, step (D.withIncrements increment) f =
      if chosen f then
        D.withIncrements
          (Function.update increment f (increment f + amount f))
      else D.withIncrements increment)
    (edges : List EdgeId) (nodup : edges.Nodup) (increment : EdgeId → Int) :
    edges.foldl step (D.withIncrements increment) =
      D.withIncrements fun f =>
        if f ∈ edges ∧ chosen f then increment f + amount f
        else increment f := by
  induction edges generalizing increment with
  | nil => simp
  | cons head rest ih =>
      obtain ⟨hhead, hrest⟩ := List.nodup_cons.mp nodup
      rw [List.foldl_cons, hstep]
      by_cases hchosen : chosen head
      · rw [if_pos hchosen, ih hrest]
        congr 1
        funext f
        by_cases hf : f = head
        · subst hf
          simp [hhead, hchosen]
        · simp [hf]
      · rw [if_neg hchosen, ih hrest]
        congr 1
        funext f
        by_cases hf : f = head
        · subst hf
          simp [hchosen]
        · simp [hf]

theorem addChordIncrements_withIncrements (D : Dag)
    (nodup : D.chordEdges.Nodup) (increment : EdgeId → Int) (weight : Int)
    (v : NodeId) (e : Option EdgeId) :
    (D.withIncrements increment).addChordIncrements weight v e =
      D.withIncrements fun f =>
        if f ∈ D.chordEdges ∧ (v = D.source f ∨ v = D.target f) then
          increment f + D.calculateChordIncrementsDir e f * weight
        else increment f := by
  refine foldl_addIncrements D (fun f => v = D.source f ∨ v = D.target f)
    (fun f => D.calculateChordIncrementsDir e f * weight) _ ?_ _ nodup increment
  intro increment f
  by_cases hends : v = D.source f ∨ v = D.target f
  · refine (if_pos hends).trans ?_
    rw [if_pos hends]
    exact D.withIncrements_modifyEdge increment f fun edge =>
      edge.increment + D.calculateChordIncrementsDir e f * weight
  · refine (if_neg hends).trans ?_
    rw [if_neg hends]

theorem addChordWeights_withIncrements (D : Dag)
    (nodup : D.chordEdges.Nodup) (increment : EdgeId → Int) :
    (D.withIncrements increment).addChordWeights =
      D.withIncrements fun f =>
        if f ∈ D.chordEdges then increment f + D.weight f
        else increment f := by
  have hfold := foldl_addIncrements D (fun _ => True) D.weight
    (fun D f => D.modifyEdge f fun edge =>
      { edge with increment := edge.increment + edge.weight })
    (by
      intro increment f
      rw [D.withIncrements_modifyEdge increment f fun edge =>
        edge.increment + edge.weight, if_pos trivial]
      rfl)
    D.chordEdges nodup increment
  simp only [and_true] at hfold
  exact hfold

/-! The search against the potential of the tree: a chord collects the potential of
its source and minus the potential of its target. -/

section Search

variable {D : Dag}

abbrev Tree (D : Dag) : Type :=
  RootedTree D.source D.target D.treeEdges (· < D.numNodes) D.root

/-- The weight with which the search arrives at `v`: the potential, with the sign
of the direction in which the edge up is passed. -/
def arrivalWeight (tree : D.Tree) (v : NodeId) : Int :=
  match tree.up v with
  | none => 0
  | some e =>
      if D.target e = v then tree.potential D.weight v
      else - tree.potential D.weight v

structure Collected (tree : D.Tree) (visited : Set NodeId)
    (increment increment' : EdgeId → Int) : Prop where
  chord : ∀ f ∈ D.chordEdges, D.source f ≠ D.target f →
    increment' f = increment f +
      visited.indicator (tree.potential D.weight) (D.source f) -
      visited.indicator (tree.potential D.weight) (D.target f)
  other : ∀ f, f ∉ D.chordEdges → increment' f = increment f

variable {tree : D.Tree}

theorem Collected.empty (increment : EdgeId → Int) :
    Collected tree ∅ increment increment where
  chord := by simp
  other _ _ := rfl

theorem Collected.union {first second : Set NodeId}
    {increment increment' increment'' : EdgeId → Int}
    (hfirst : Collected tree first increment increment')
    (hsecond : Collected tree second increment' increment'')
    (disjoint : Disjoint first second) :
    Collected tree (first ∪ second) increment increment'' where
  chord := by
    intro f member hne
    rw [hsecond.chord f member hne, hfirst.chord f member hne,
      Set.indicator_union_of_disjoint disjoint]
    ring
  other := by
    intro f hnot
    rw [hsecond.other f hnot, hfirst.other f hnot]

/-- Seen from `v`, the arriving weight has the sign with which `v` counts for
`f`. -/
theorem dir_mul_arrivalWeight (tree : D.Tree) {v : NodeId}
    (hv : v < D.numNodes) {f : EdgeId} (hne : D.source f ≠ D.target f)
    (hend : v = D.source f ∨ v = D.target f) :
    D.calculateChordIncrementsDir (tree.up v) f * arrivalWeight tree v =
      if v = D.source f then tree.potential D.weight v
      else - tree.potential D.weight v := by
  by_cases hroot : v = D.root
  · subst hroot
    simp [arrivalWeight, tree.up_root]
  · obtain ⟨e, _, hup, hends⟩ := tree.exists_up v hv hroot
    have hparent := tree.parent_ne hv hroot
    have hnot : ¬ (v = D.source f ∧ v = D.target f) :=
      fun h => hne (h.1.symm.trans h.2)
    rcases hends with ⟨hsource, htarget⟩ | ⟨hsource, htarget⟩
    · rcases hend with hf | hf
      · simp [arrivalWeight, hup, calculateChordIncrementsDir, htarget, ← hf]
      · have hother : v ≠ D.source f := fun h => hnot ⟨h, hf⟩
        simp [arrivalWeight, hup, calculateChordIncrementsDir, hsource, htarget,
          ← hf, hparent, hother]
    · rcases hend with hf | hf
      · have hother : v ≠ D.target f := fun h => hnot ⟨hf, h⟩
        simp [arrivalWeight, hup, calculateChordIncrementsDir, hsource, htarget,
          ← hf, hparent, hother]
      · have hother : v ≠ D.source f := fun h => hnot ⟨h, hf⟩
        simp [arrivalWeight, hup, calculateChordIncrementsDir, hsource, htarget,
          ← hf, hparent, hother]

theorem arrivalWeight_child (tree : D.Tree) {v child : NodeId} {f : EdgeId}
    (hv : v < D.numNodes) (hchild : child < D.numNodes) (hroot : child ≠ D.root)
    (hup : tree.up child = some f) (hparent : tree.parent child = v)
    (hends : (D.source f = v ∧ D.target f = child) ∨
      (D.source f = child ∧ D.target f = v)) :
    D.calculateChordIncrementsDir (tree.up v) f * arrivalWeight tree v +
        D.weight f = arrivalWeight tree child := by
  have hne : v ≠ child := by
    rw [← hparent]
    exact tree.parent_ne hchild hroot
  have hpotential := tree.potential_up D.weight hchild hroot hup
  rw [hparent] at hpotential
  rcases hends with ⟨hsource, htarget⟩ | ⟨hsource, htarget⟩
  · rw [dir_mul_arrivalWeight tree hv (by rw [hsource, htarget]; exact hne)
      (.inl hsource.symm), if_pos hsource.symm]
    rw [if_pos htarget] at hpotential
    simp [arrivalWeight, hup, htarget, hpotential]
  · rw [dir_mul_arrivalWeight tree hv (by rw [hsource, htarget]; exact hne.symm)
      (.inr htarget.symm), if_neg (by rw [hsource]; exact hne)]
    rw [if_neg (by rw [htarget]; exact hne)] at hpotential
    simp only [arrivalWeight, hup, htarget, if_neg hne, hpotential]
    ring

def underEdges (tree : D.Tree) (v : NodeId) (edges : List EdgeId) :
    Set NodeId :=
  { x | ∃ f ∈ edges, ∃ child, child < D.numNodes ∧ child ≠ D.root ∧
      tree.up child = some f ∧ tree.parent child = v ∧ tree.Under child x }

theorem underEdges_nil (tree : D.Tree) (v : NodeId) :
    underEdges tree v [] = ∅ := by
  simp [underEdges]

theorem underEdges_cons (tree : D.Tree) (v : NodeId) (f : EdgeId)
    (rest : List EdgeId) :
    underEdges tree v (f :: rest) =
      underEdges tree v [f] ∪ underEdges tree v rest := by
  ext x
  simp [underEdges]

theorem disjoint_underEdges (tree : D.Tree) (v : NodeId) {f : EdgeId}
    {rest : List EdgeId} (hnot : f ∉ rest) :
    Disjoint (underEdges tree v [f]) (underEdges tree v rest) := by
  rw [Set.disjoint_left]
  rintro x ⟨g, hg, first, hfirst, hfirstNe, hup, hparent, hunder⟩
    ⟨g', hg', second, hsecond, hsecondNe, hup', hparent', hunder'⟩
  have heq : first = second :=
    hunder.child_unique hfirst hfirstNe hsecond hsecondNe
      (hparent.trans hparent'.symm) hunder'
  subst heq
  rw [List.mem_singleton] at hg
  subst hg
  have hsame : g = g' := Option.some.inj (hup.symm.trans hup')
  exact hnot (hsame ▸ hg')

theorem underEdges_of_child (tree : D.Tree) {v child : NodeId} {f : EdgeId}
    (hchild : child < D.numNodes) (hroot : child ≠ D.root)
    (hup : tree.up child = some f) (hparent : tree.parent child = v) :
    underEdges tree v [f] = { x | tree.Under child x } := by
  ext x
  constructor
  · rintro ⟨g, hg, other, hother, hotherNe, hup', hparent', hunder⟩
    rw [List.mem_singleton] at hg
    subst hg
    have heq := tree.up_injective hother hotherNe hchild hroot hup' hup
    exact heq ▸ hunder
  · intro hunder
    exact ⟨f, by simp, child, hchild, hroot, hup, hparent, hunder⟩

theorem underEdges_eq_empty (tree : D.Tree) {v : NodeId} {f : EdgeId}
    (hnot : tree.up v = some f ∨ (v ≠ D.source f ∧ v ≠ D.target f)) :
    underEdges tree v [f] = ∅ := by
  rw [Set.eq_empty_iff_forall_notMem]
  rintro x ⟨g, hg, child, hchild, hroot, hup, hparent, _⟩
  rw [List.mem_singleton] at hg
  subst hg
  rcases hnot with hv | ⟨hsource, htarget⟩
  · have hvroot : v ≠ D.root := by
      rintro rfl
      rw [tree.up_root] at hv
      contradiction
    have hvlt : v < D.numNodes := hparent ▸ tree.vertex_parent child hchild hroot
    have heq := tree.up_injective hvlt hvroot hchild hroot hv hup
    exact tree.parent_ne hchild hroot (hparent.trans heq)
  · obtain ⟨e, _, hup', hends⟩ := tree.exists_up child hchild hroot
    have heq : e = g := Option.some.inj (hup'.symm.trans hup)
    subst heq
    rw [hparent] at hends
    rcases hends with ⟨h, _⟩ | ⟨_, h⟩
    · exact hsource h.symm
    · exact htarget h.symm

theorem underEdges_treeEdges (tree : D.Tree) (v : NodeId) :
    underEdges tree v D.treeEdges ∪ {v} = { x | tree.Under v x } := by
  ext x
  constructor
  · rintro (⟨_, _, child, hchild, hroot, _, hparent, hunder⟩ | hx)
    · exact hparent ▸ hunder.of_child hchild hroot
    · rw [Set.mem_singleton_iff] at hx
      subst hx
      exact .self
  · intro hunder
    by_cases hx : x = v
    · exact .inr hx
    · obtain ⟨child, hchild, hroot, hparent, hbelow⟩ := hunder.exists_child hx
      obtain ⟨f, member, hup, _⟩ := tree.exists_up child hchild hroot
      exact .inl ⟨f, member, child, hchild, hroot, hup, hparent, hbelow⟩

theorem disjoint_underEdges_singleton (tree : D.Tree) (v : NodeId)
    (edges : List EdgeId) : Disjoint (underEdges tree v edges) {v} := by
  rw [Set.disjoint_singleton_right]
  rintro ⟨_, _, child, hchild, hroot, _, hparent, hunder⟩
  exact tree.not_under_child hchild hroot (hparent.symm ▸ hunder)

/-- The second loop: the chords at `v` collect the potential of `v`. -/
theorem addChordIncrements_collected (nodup : D.chordEdges.Nodup)
    (tree : D.Tree) {v : NodeId} (hv : v < D.numNodes)
    (increment : EdgeId → Int) :
    ∃ increment',
      (D.withIncrements increment).addChordIncrements
          (arrivalWeight tree v) v (tree.up v) =
        D.withIncrements increment' ∧
      Collected tree {v} increment increment' := by
  refine ⟨_, D.addChordIncrements_withIncrements nodup _ _ _ _, ?_, ?_⟩
  · intro f member hne
    by_cases hend : v = D.source f ∨ v = D.target f
    · rw [if_pos ⟨member, hend⟩, dir_mul_arrivalWeight tree hv hne hend]
      by_cases hsource : v = D.source f
      · simp [hsource, hne.symm]
      · have htarget : v = D.target f := hend.resolve_left hsource
        rw [if_neg hsource]
        simp [htarget, hne]
        ring
    · rw [if_neg fun h => hend h.2]
      rw [not_or] at hend
      simp [Ne.symm hend.1, Ne.symm hend.2]
  · intro f hnot
    rw [if_neg fun h => hnot h.1]

def SearchSpec (tree : D.Tree)
    (dfs : Dag → Int → NodeId → Option EdgeId → Option Dag) (v : NodeId) :
    Prop :=
  ∀ increment, ∃ increment',
    dfs (D.withIncrements increment) (arrivalWeight tree v) v (tree.up v) =
      some (D.withIncrements increment') ∧
    Collected tree { x | tree.Under v x } increment increment'

/-- One tree edge is passed at most once, and only down to a child of `v`. -/
theorem searchTreeEdge_collected (tree : D.Tree) {v : NodeId}
    (hv : v < D.numNodes) {f : EdgeId} (member : f ∈ D.treeEdges)
    {dfs : Dag → Int → NodeId → Option EdgeId → Option Dag}
    (children : ∀ child, child < D.numNodes → child ≠ D.root →
      tree.parent child = v → SearchSpec tree dfs child)
    (increment : EdgeId → Int) :
    ∃ increment',
      searchTreeEdge dfs (arrivalWeight tree v) v (tree.up v)
          (D.withIncrements increment) f =
        some (D.withIncrements increment') ∧
      Collected tree (underEdges tree v [f]) increment increment' := by
  have stay (hnot : tree.up v = some f ∨
      (v ≠ D.source f ∧ v ≠ D.target f)) :
      ∃ increment',
        searchTreeEdge dfs (arrivalWeight tree v) v (tree.up v)
            (D.withIncrements increment) f =
          some (D.withIncrements increment') ∧
        Collected tree (underEdges tree v [f]) increment increment' := by
    refine ⟨increment, ?_, ?_⟩
    · have htarget : ¬ (tree.up v ≠ some f ∧ v = D.target f) := by tauto
      have hsource : ¬ (tree.up v ≠ some f ∧ v = D.source f) := by tauto
      simp [searchTreeEdge, htarget, hsource]
    · rw [underEdges_eq_empty tree hnot]
      exact .empty increment
  by_cases hup : tree.up v = some f
  · exact stay (.inl hup)
  by_cases hend : v = D.source f ∨ v = D.target f
  swap
  · exact stay (.inr (not_or.mp hend))
  obtain ⟨child, hchild, hroot, hupChild, hparent, hends⟩ :=
    tree.exists_child member hup hend
  have hne : v ≠ child := by
    rw [← hparent]
    exact tree.parent_ne hchild hroot
  obtain ⟨increment', hdfs, collected⟩ :=
    children child hchild hroot hparent increment
  rw [← arrivalWeight_child tree hv hchild hroot hupChild hparent hends,
    hupChild] at hdfs
  refine ⟨increment', ?_, ?_⟩
  · rcases hends with ⟨hsource, htarget⟩ | ⟨hsource, htarget⟩
    · subst htarget
      simp [searchTreeEdge, hup, hsource, hdfs, hne]
    · subst hsource
      simp [searchTreeEdge, hup, htarget, hdfs, hne]
  · rw [underEdges_of_child tree hchild hroot hupChild hparent]
    exact collected

theorem foldlM_searchTreeEdge_collected (tree : D.Tree) {v : NodeId}
    (hv : v < D.numNodes)
    {dfs : Dag → Int → NodeId → Option EdgeId → Option Dag}
    (children : ∀ child, child < D.numNodes → child ≠ D.root →
      tree.parent child = v → SearchSpec tree dfs child)
    (edges : List EdgeId) (nodup : edges.Nodup)
    (member : ∀ f ∈ edges, f ∈ D.treeEdges) (increment : EdgeId → Int) :
    ∃ increment',
      edges.foldlM
          (searchTreeEdge dfs (arrivalWeight tree v) v (tree.up v))
          (D.withIncrements increment) =
        some (D.withIncrements increment') ∧
      Collected tree (underEdges tree v edges) increment increment' := by
  induction edges generalizing increment with
  | nil =>
      refine ⟨increment, rfl, ?_⟩
      rw [underEdges_nil]
      exact .empty increment
  | cons f rest ih =>
      obtain ⟨hnot, hrest⟩ := List.nodup_cons.mp nodup
      obtain ⟨middle, hstep, hcollected⟩ :=
        searchTreeEdge_collected tree hv (member f (by simp)) children increment
      obtain ⟨increment', hloop, hcollected'⟩ :=
        ih hrest (fun g hg => member g (by simp [hg])) middle
      refine ⟨increment', ?_, ?_⟩
      · rw [List.foldlM_cons, hstep]
        exact hloop
      · rw [underEdges_cons]
        exact hcollected.union hcollected' (disjoint_underEdges tree v hnot)

/-- The search ends when the fuel covers the depth of the tree. -/
theorem calculateChordIncrementsDfs_collected (tree : D.Tree)
    (nodupTree : D.treeEdges.Nodup) (nodupChords : D.chordEdges.Nodup)
    {height : Nat} (hheight : ∀ x, x < D.numNodes → tree.depth x ≤ height)
    (fuel : Nat) {v : NodeId} (hv : v < D.numNodes)
    (hfuel : height < tree.depth v + fuel) :
    SearchSpec tree (calculateChordIncrementsDfs fuel) v := by
  induction fuel generalizing v with
  | zero =>
      have := hheight v hv
      omega
  | succ fuel ih =>
      intro increment
      have children : ∀ child, child < D.numNodes → child ≠ D.root →
          tree.parent child = v →
          SearchSpec tree (calculateChordIncrementsDfs fuel) child := by
        intro child hchild hroot hparent
        have hdepth := tree.depth_parent child hchild hroot
        rw [hparent] at hdepth
        exact ih hchild (by omega)
      obtain ⟨walked, hwalked, hcollected⟩ :=
        foldlM_searchTreeEdge_collected tree hv children D.treeEdges nodupTree
          (fun _ hf => hf) increment
      obtain ⟨increment', hchords, hcollected'⟩ :=
        addChordIncrements_collected nodupChords tree hv walked
      refine ⟨increment', ?_, ?_⟩
      · exact (congrArg (· >>= _) hwalked).trans (congrArg some hchords)
      · rw [← underEdges_treeEdges]
        exact hcollected.union hcollected'
          (disjoint_underEdges_singleton tree v D.treeEdges)

end Search

variable {D : Dag}

/-- `_treeEdges` and `_chordEdges` as the search takes them: an undirected spanning
tree of the graph without its split edges, and the edges that remain. -/
structure TreeAndChords (D : Dag) : Prop where
  tree : IsSpanningTree D.source D.target D.treeEdges (· < D.numNodes) D.root
  mem_treeEdges : ∀ e ∈ D.treeEdges, e < D.numEdges ∧ D.type e ≠ .splitedge
  mem_chordEdges : ∀ e, e ∈ D.chordEdges ↔
    e < D.numEdges ∧ e ∉ D.treeEdges ∧ D.type e ≠ .splitedge
  nodup_chordEdges : D.chordEdges.Nodup

theorem BallLarus.exists_tree (shape : D.BallLarus)
    (split : D.TreeAndChords) : Nonempty D.Tree := by
  refine RootedTree.exists_of_isSpanningTree split.tree shape.root_lt ?_
  intro e member
  have he := (split.mem_treeEdges e member).1
  exact ⟨shape.source_lt e he, shape.target_lt e he⟩

/-- Every edge ends with its weight, corrected by the potentials of its ends; for
a tree edge this is `0`. -/
theorem BallLarus.calculateChordIncrements_potential (shape : D.BallLarus)
    (split : D.TreeAndChords)
    (zero : ∀ e, e < D.numEdges → D.increment e = 0) :
    ∃ (bound : Nat) (potential : NodeId → Int), ∀ fuel, bound ≤ fuel →
      ∃ increment,
        calculateChordIncrements fuel D = some (D.withIncrements increment) ∧
        (∀ e ∈ D.treeEdges, increment e = 0) ∧
        ∀ e, e < D.numEdges → D.type e ≠ .splitedge →
          D.source e ≠ D.target e →
          increment e =
            D.weight e + potential (D.source e) - potential (D.target e) := by
  obtain ⟨tree⟩ := shape.exists_tree split
  let height := (Finset.range D.numNodes).sup tree.depth
  have hheight : ∀ x, x < D.numNodes → tree.depth x ≤ height := by
    intro x hx
    exact Finset.le_sup (f := tree.depth) (Finset.mem_range.mpr hx)
  refine ⟨height + 1, tree.potential D.weight, fun fuel hfuel => ?_⟩
  obtain ⟨searched, hsearched, collected⟩ :=
    calculateChordIncrementsDfs_collected tree split.tree.nodup
      split.nodup_chordEdges hheight fuel shape.root_lt (by omega) D.increment
  have harrival : arrivalWeight tree D.root = 0 := by
    simp [arrivalWeight, tree.up_root]
  rw [harrival, tree.up_root, withIncrements_self] at hsearched
  refine ⟨_, (congrArg (· >>= _) hsearched).trans (congrArg some
    (D.addChordWeights_withIncrements split.nodup_chordEdges searched)), ?_, ?_⟩
  · intro e member
    have hnot : e ∉ D.chordEdges :=
      fun h => ((split.mem_chordEdges e).mp h).2.1 member
    rw [if_neg hnot, collected.other e hnot,
      zero e (split.mem_treeEdges e member).1]
  · intro e he htype hne
    by_cases htree : e ∈ D.treeEdges
    · have hnot : e ∉ D.chordEdges :=
        fun h => ((split.mem_chordEdges e).mp h).2.1 htree
      rw [if_neg hnot, collected.other e hnot, zero e he,
        tree.potential_edge D.weight htree]
      ring
    · have hchord : e ∈ D.chordEdges :=
        (split.mem_chordEdges e).mpr ⟨he, htree, htype⟩
      have visited : ∀ x, x < D.numNodes →
          x ∈ { x | tree.Under D.root x } := fun x hx => tree.under_root hx
      rw [if_pos hchord, collected.chord e hchord hne, zero e he,
        Set.indicator_of_mem (visited _ (shape.source_lt e he)),
        Set.indicator_of_mem (visited _ (shape.target_lt e he))]
      ring

theorem Path.sum_potential {allowed : EdgeId → Prop} {x y : NodeId}
    {path : List EdgeId} (hpath : D.Path allowed x path y)
    {increment : EdgeId → Int} {potential : NodeId → Int}
    (hincrement : ∀ e, allowed e → increment e =
      D.weight e + potential (D.source e) - potential (D.target e)) :
    (path.map increment).sum =
      (path.map D.weight).sum + potential x - potential y := by
  induction hpath with
  | nil x => simp
  | cons head _ ih =>
      rw [List.map_cons, List.sum_cons, List.map_cons, List.sum_cons, ih,
        hincrement _ head]
      ring

theorem BallLarus.source_ne_target (shape : D.BallLarus) {e : EdgeId}
    (he : D.IsDagEdge e) : D.source e ≠ D.target e := by
  obtain ⟨rank, hrank⟩ := shape.acyclic
  intro heq
  have := hrank e he
  rw [heq] at this
  omega

/-- For every spanning tree the chord increments give each root-to-exit path the
sum of its weights, and the tree edges carry no increment. -/
theorem calculateChordIncrements_path_weights (shape : D.BallLarus)
    (split : D.TreeAndChords)
    (zero : ∀ e, e < D.numEdges → D.increment e = 0) :
    ∃ bound exitRoot, D.getExitRootEdge = some exitRoot ∧
      ∀ fuel, bound ≤ fuel → ∃ D',
        calculateChordIncrements fuel D = some D' ∧
        (∀ e ∈ D.treeEdges, D'.increment e = 0) ∧
        ∀ path, D.RootExitPath path →
          D'.increment exitRoot + (path.map D'.increment).sum =
            D.weight exitRoot + (path.map D.weight).sum := by
  obtain ⟨e, exitRoot⟩ := shape.exists_exitRootEdge
  obtain ⟨bound, potential, hbound⟩ :=
    shape.calculateChordIncrements_potential split zero
  refine ⟨bound, e, exitRoot.head, fun fuel hfuel => ?_⟩
  obtain ⟨increment, hresult, htree, hincrement⟩ := hbound fuel hfuel
  refine ⟨D.withIncrements increment, hresult, htree, fun path hpath => ?_⟩
  have hclosing : increment e =
      D.weight e + potential D.exit - potential D.root := by
    have hne : D.source e ≠ D.target e := by
      rw [exitRoot.source, exitRoot.target]
      exact shape.root_ne_exit.symm
    have := hincrement e exitRoot.lt (by simp [exitRoot.normal]) hne
    rwa [exitRoot.source, exitRoot.target] at this
  have hsum := Path.sum_potential hpath fun f hf =>
    hincrement f hf.1 hf.ne_splitedge (shape.source_ne_target hf)
  change increment e + (path.map increment).sum = _
  rw [hclosing, hsum]
  ring

def whileLoopTree : Dag :=
  { whileLoop with treeEdges := [0, 1, 2, 4], chordEdges := [3, 5, 6, 7] }

theorem whileLoopTree_ballLarus : whileLoopTree.BallLarus :=
  { whileLoop_ballLarus with }

theorem whileLoopTree_connected {e : EdgeId}
    (member : e ∈ whileLoopTree.treeEdges) :
    Connected whileLoopTree.source whileLoopTree.target whileLoopTree.treeEdges
      (whileLoopTree.source e) (whileLoopTree.target e) :=
  .single ⟨e, member, .inl ⟨rfl, rfl⟩⟩

theorem whileLoopTree_treeAndChords : whileLoopTree.TreeAndChords where
  tree := {
    spans := by
      have header := whileLoopTree_connected (e := 0) (by decide)
      have body := header.trans (whileLoopTree_connected (e := 1) (by decide))
      have ret := header.trans (whileLoopTree_connected (e := 2) (by decide))
      have exit := ret.trans (whileLoopTree_connected (e := 4) (by decide))
      intro x hx
      match x, hx with
      | 0, _ => exact .refl
      | 1, _ => exact exit
      | 2, _ => exact header
      | 3, _ => exact body
      | 4, _ => exact ret
      | x + 5, hx => exact absurd hx (Nat.not_lt.mpr (Nat.le_add_left 5 x))
    acyclic := by
      intro e member
      -- the nodes on the side of the tree edge's target
      refine not_connected_of_closed
        (fun x => x ∉ ([[1, 2, 3, 4], [3], [1, 4], [], [1]].getD e [])) ?_ ?_ ?_
      all_goals
        revert e
        decide }
  mem_treeEdges := by decide
  mem_chordEdges := by
    intro e
    constructor
    · revert e
      decide
    · rintro ⟨he, hnot⟩
      revert e
      decide
  nodup_chordEdges := by decide

theorem calculateChordIncrements_path_weights_whileLoopTree :
    ∃ bound exitRoot, whileLoopTree.getExitRootEdge = some exitRoot ∧
      ∀ fuel, bound ≤ fuel → ∃ D',
        calculateChordIncrements fuel whileLoopTree = some D' ∧
        (∀ e ∈ whileLoopTree.treeEdges, D'.increment e = 0) ∧
        ∀ path, whileLoopTree.RootExitPath path →
          D'.increment exitRoot + (path.map D'.increment).sum =
            whileLoopTree.weight exitRoot +
              (path.map whileLoopTree.weight).sum :=
  calculateChordIncrements_path_weights whileLoopTree_ballLarus
    whileLoopTree_treeAndChords (by decide)

end Dag

end RrWorkbench.PathLogging
