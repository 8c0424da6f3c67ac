import RrWorkbench.Data.Run
import RrWorkbench.PathLogging.Links

namespace RrWorkbench.PathLogging

open RrWorkbench.Data

/-! Any number of splits, in any order: an edge of the first graph becomes a chain of
edges through new nodes, of which the last has what the edge had. -/

theorem EdgeType.eq_normal {type : EdgeType} (hphony : type.isPhony = false)
    (hcut : type.isCut = false) : type = .normal := by
  cases type <;> first | rfl | contradiction

namespace Dag

def splitLinked (D : Dag) (split : EdgeId × BlockId) : Option Dag :=
  if D.Linked split.1 then some (D.splitUpdate split.1 split.2) else none

structure IsBare (D : Dag) (e : EdgeId) : Prop where
  type : D.type e = .normal
  phonyRoot : (D.edge e).phonyRoot = none
  phonyExit : (D.edge e).phonyExit = none

structure Carries (D D' : Dag) (e f : EdgeId) : Prop where
  type : D'.type f = D.type e
  phonyRoot : (D'.edge f).phonyRoot = (D.edge e).phonyRoot
  phonyExit : (D'.edge f).phonyExit = (D.edge e).phonyExit

namespace Carries

variable {D D' D'' : Dag} {e f g : EdgeId}

theorem of_edge_eq (hedge : D'.edge f = D.edge e) : Carries D D' e f where
  type := congrArg Edge.type hedge
  phonyRoot := congrArg Edge.phonyRoot hedge
  phonyExit := congrArg Edge.phonyExit hedge

theorem trans (first : Carries D D' e f) (second : Carries D' D'' f g) :
    Carries D D'' e g where
  type := second.type.trans first.type
  phonyRoot := second.phonyRoot.trans first.phonyRoot
  phonyExit := second.phonyExit.trans first.phonyExit

theorem isBare (carries : Carries D D' e f) (bare : D.IsBare e) : D'.IsBare f where
  type := carries.type.trans bare.type
  phonyRoot := carries.phonyRoot.trans bare.phonyRoot
  phonyExit := carries.phonyExit.trans bare.phonyExit

end Carries

/-- An edge that has nothing to carry and leads to a node which `D` does not have and
which no other edges enter or leave. -/
structure Inner (D D' : Dag) (f : EdgeId) : Prop where
  fresh : D.numNodes ≤ D'.target f
  one_pred : D'.getNumberPredEdges (D'.target f) = 1
  one_succ : D'.getNumberSuccEdges (D'.target f) = 1
  bare : D'.IsBare f

/-- The edges `first`, and behind them `last`, stand in `D'` for the edge `e` of `D`.
They lead from its source to its target through new nodes; only `last` has the type and
the phony edges of `e`. -/
structure Chain (D D' : Dag) (e : EdgeId) (first : List EdgeId) (last : EdgeId) : Prop where
  path : D'.Path D'.Linked (D.source e) (first ++ [last]) (D.target e)
  inner : ∀ f ∈ first, Inner D D' f
  carries : Carries D D' e last

def splitInto (D : Dag) (f g : EdgeId) : List EdgeId :=
  if g = f then [f, D.numEdges] else [g]

section Split

variable {D : Dag} {e f g : EdgeId} {b : BlockId}

theorem isBare_former (hf : D.Linked f) (hbare : (D.type f).isCut = false → D.IsBare f) :
    (D.splitUpdate f b).IsBare f := by
  have hedge := splitUpdate_edge_former (b := b) hf.1
  cases hcut : (D.type f).isCut with
  | true =>
      rw [formerEdge, if_pos hcut] at hedge
      exact ⟨by rw [Dag.type, hedge], by rw [hedge], by rw [hedge]⟩
  | false =>
      have bare := hbare hcut
      rw [formerEdge, if_neg (Bool.eq_false_iff.mp hcut)] at hedge
      exact ⟨by rw [Dag.type, hedge]; exact bare.type, by rw [hedge]; exact bare.phonyRoot,
        by rw [hedge]; exact bare.phonyExit⟩

theorem newEdge_carries (hf : D.Linked f) (hbare : (D.type f).isCut = false → D.IsBare f) :
    Carries D (D.splitUpdate f b) f D.numEdges := by
  have hedge := splitUpdate_edge_new (b := b) hf.1
  cases hcut : (D.type f).isCut with
  | true =>
      rw [newEdge, if_pos hcut] at hedge
      exact ⟨by rw [Dag.type, hedge], by rw [hedge], by rw [hedge]⟩
  | false =>
      have bare := hbare hcut
      rw [newEdge, if_neg (Bool.eq_false_iff.mp hcut)] at hedge
      exact ⟨by rw [Dag.type, hedge, bare.type], by rw [hedge, bare.phonyRoot],
        by rw [hedge, bare.phonyExit]⟩

theorem path_split (hf : D.Linked f) {x y : NodeId}
    {path : List EdgeId} (hpath : D.Path D.Linked x path y) :
    (D.splitUpdate f b).Path (D.splitUpdate f b).Linked x
      (path.flatMap (D.splitInto f)) y := by
  have hlinked := splitUpdate_linked (b := b) hf.1 hf
  have hsource := splitUpdate_source (D := D) (b := b) hf.1
  have htarget := splitUpdate_target (D := D) (b := b) hf.1
  refine hpath.flatMap fun g hg => ?_
  by_cases hgf : g = f
  · subst hgf
    rw [splitInto, if_pos rfl, EdgePath.cons_iff, EdgePath.cons_iff, EdgePath.nil_iff,
      hsource, hsource, htarget, htarget, if_neg (Nat.ne_of_lt hf.1), if_pos rfl,
      if_neg (Nat.ne_of_lt hf.1), if_pos rfl, if_pos rfl]
    exact ⟨(hlinked g).mpr (.inr hg), rfl, (hlinked _).mpr (.inl rfl), rfl, rfl⟩
  · rw [splitInto, if_neg hgf, EdgePath.cons_iff, EdgePath.nil_iff, hsource, htarget,
      if_neg (Nat.ne_of_lt hg.1), if_neg (Nat.ne_of_lt hg.1), if_neg hgf]
    exact ⟨(hlinked g).mpr (.inr hg), rfl, rfl⟩

/-! The chains after a split of `f`. -/

def splitFirst (D : Dag) (f : EdgeId) (first : List EdgeId) (last : EdgeId) : List EdgeId :=
  if last = f then first.flatMap (D.splitInto f) ++ [f] else first.flatMap (D.splitInto f)

def splitLast (D : Dag) (f last : EdgeId) : EdgeId :=
  if last = f then D.numEdges else last

theorem splitFirst_append_splitLast (first : List EdgeId) (last : EdgeId) :
    D.splitFirst f first last ++ [D.splitLast f last] =
      (first ++ [last]).flatMap (D.splitInto f) := by
  rw [List.flatMap_append, List.flatMap_singleton, splitFirst, splitLast, splitInto]
  by_cases hlast : last = f
  · simp [hlast]
  · simp [hlast]

theorem mem_flatMap_splitInto {path : List EdgeId} :
    g ∈ path.flatMap (D.splitInto f) ↔ g ∈ path ∨ g = D.numEdges ∧ f ∈ path := by
  rw [List.mem_flatMap]
  constructor
  · rintro ⟨h, hmem, hg⟩
    by_cases hf : h = f
    · subst hf
      rw [splitInto, if_pos rfl, List.mem_cons, List.mem_singleton] at hg
      rcases hg with rfl | rfl
      · exact .inl hmem
      · exact .inr ⟨rfl, hmem⟩
    · rw [splitInto, if_neg hf, List.mem_singleton] at hg
      exact .inl (hg ▸ hmem)
  · rintro (hmem | ⟨rfl, hmem⟩)
    · refine ⟨g, hmem, ?_⟩
      by_cases hf : g = f
      · simp [splitInto, hf]
      · simp [splitInto, hf]
    · exact ⟨f, hmem, by simp [splitInto]⟩

theorem mem_splitFirst {first : List EdgeId} {last : EdgeId}
    (hg : g ∈ D.splitFirst f first last) :
    g ∈ first ∧ g ≠ f ∨ g = f ∧ f ∈ first ++ [last] ∨ g = D.numEdges ∧ f ∈ first := by
  have hcases : g ∈ first.flatMap (D.splitInto f) ∨ g = f ∧ last = f := by
    rw [splitFirst] at hg
    split at hg
    · rcases List.mem_append.mp hg with hg | hg
      · exact .inl hg
      · exact .inr ⟨List.mem_singleton.mp hg, ‹_›⟩
    · exact .inl hg
  rcases hcases with hg | ⟨hgf, hlast⟩
  · rcases mem_flatMap_splitInto.mp hg with hg | hnew
    · by_cases hgf : g = f
      · exact .inr (.inl ⟨hgf, List.mem_append_left _ (hgf ▸ hg)⟩)
      · exact .inl ⟨hg, hgf⟩
    · exact .inr (.inr hnew)
  · exact .inr (.inl ⟨hgf, by simp [hlast]⟩)

end Split

section Inner

variable {D D' : Dag} {f g : EdgeId} {b : BlockId} (links : D'.Links D'.Linked)
  (hf : D'.Linked f)

include links hf

theorem getNumberSuccEdges_split {x : NodeId} (hx : x < D'.numNodes) :
    (D'.splitUpdate f b).getNumberSuccEdges x = D'.getNumberSuccEdges x := by
  rw [getNumberSuccEdges, splitUpdate_succEdges (links.target_lt f hf),
    if_neg (Nat.ne_of_lt hx), getNumberSuccEdges]

theorem Inner.of_target {h : EdgeId} (inner : Inner D D' h) (hh : D'.Linked h)
    (htarget : (D'.splitUpdate f b).target g = D'.target h)
    (bare : (D'.splitUpdate f b).IsBare g) : Inner D (D'.splitUpdate f b) g where
  fresh := by rw [htarget]; exact inner.fresh
  one_pred := by
    rw [htarget, links.getNumberPredEdges_split hf (links.target_lt h hh)]
    exact inner.one_pred
  one_succ := by
    rw [htarget, getNumberSuccEdges_split links hf (links.target_lt h hh)]
    exact inner.one_succ
  bare := bare

theorem Inner.split_other (inner : Inner D D' g) (hg : D'.Linked g) (hne : g ≠ f) :
    Inner D (D'.splitUpdate f b) g := by
  have hedge : (D'.splitUpdate f b).edge g = D'.edge g := splitUpdate_edge_of_ne hg.1 hne
  refine inner.of_target links hf hg ?_ ((Carries.of_edge_eq hedge).isBare inner.bare)
  rw [Dag.target, hedge, Dag.target]

theorem Inner.split_new (inner : Inner D D' f) :
    Inner D (D'.splitUpdate f b) D'.numEdges := by
  have carries := newEdge_carries (b := b) hf fun _ => inner.bare
  refine inner.of_target links hf hf ?_ (carries.isBare inner.bare)
  rw [splitUpdate_target hf.1, if_pos rfl]

theorem inner_former (hle : D.numNodes ≤ D'.numNodes)
    (hbare : (D'.type f).isCut = false → D'.IsBare f) : Inner D (D'.splitUpdate f b) f := by
  have htarget : (D'.splitUpdate f b).target f = D'.numNodes := by
    rw [splitUpdate_target hf.1, if_neg (Nat.ne_of_lt hf.1), if_pos rfl]
  refine ⟨?_, ?_, ?_, isBare_former hf hbare⟩
  · rw [htarget]
    exact hle
  · rw [htarget, getNumberPredEdges, splitUpdate_predEdges (links.target_lt f hf), if_pos rfl,
      List.length_singleton]
  · rw [htarget, getNumberSuccEdges, splitUpdate_succEdges (links.target_lt f hf), if_pos rfl,
      List.length_singleton]

end Inner

section Chain

variable {D D' : Dag} {e f : EdgeId} {b : BlockId} {first : List EdgeId} {last : EdgeId}

theorem Chain.isBare (chain : Chain D D' e first last) (he : D.Linked e)
    (hnormal : D.type e = .normal → D.IsBare e) (hf : f ∈ first ++ [last])
    (hcut : (D'.type f).isCut = false) : D'.IsBare f := by
  rcases List.mem_append.mp hf with hf | hf
  · exact (chain.inner f hf).bare
  · obtain rfl := List.mem_singleton.mp hf
    rw [chain.carries.type] at hcut
    exact chain.carries.isBare (hnormal (EdgeType.eq_normal he.2 hcut))

/-- A split leaves a chain for `e`, longer by one edge if it splits one of the chain. -/
theorem Chain.split (chain : Chain D D' e first last) (he : D.Linked e)
    (hnormal : D.type e = .normal → D.IsBare e) (links : D'.Links D'.Linked)
    (hle : D.numNodes ≤ D'.numNodes) (hf : D'.Linked f) :
    Chain D (D'.splitUpdate f b) e (D'.splitFirst f first last) (D'.splitLast f last) := by
  have hlinked := chain.path.allowed_of_mem
  have hpath : (D'.splitUpdate f b).Path (D'.splitUpdate f b).Linked (D.source e)
      (D'.splitFirst f first last ++ [D'.splitLast f last]) (D.target e) := by
    rw [splitFirst_append_splitLast]
    exact path_split hf chain.path
  have hinner : ∀ g ∈ D'.splitFirst f first last, Inner D (D'.splitUpdate f b) g := by
    intro g hg
    rcases mem_splitFirst hg with ⟨hg, hne⟩ | ⟨rfl, hmem⟩ | ⟨rfl, hmem⟩
    · exact (chain.inner g hg).split_other links hf (hlinked g (List.mem_append_left _ hg)) hne
    · exact inner_former links hf hle (chain.isBare he hnormal hmem)
    · exact (chain.inner f hmem).split_new links hf
  by_cases hlast : last = f
  · subst hlast
    have hbare := chain.isBare he hnormal (List.mem_append_right first List.mem_cons_self)
    have hnew : D'.splitLast last last = D'.numEdges := if_pos rfl
    refine ⟨hpath, hinner, ?_⟩
    rw [hnew]
    exact chain.carries.trans (newEdge_carries hf hbare)
  · have hold : D'.splitLast f last = last := if_neg hlast
    have hedge : (D'.splitUpdate f b).edge last = D'.edge last :=
      splitUpdate_edge_of_ne (hlinked last (by simp)).1 hlast
    refine ⟨hpath, hinner, ?_⟩
    rw [hold]
    exact chain.carries.trans (Carries.of_edge_eq hedge)

end Chain

/-- What splits have made of the unlinked DAG: the chains stand for its edges, each of
the present edges belongs to one of them, and what else there was is as before. -/
structure Refines (D D' : Dag) (first : EdgeId → List EdgeId) (last : EdgeId → EdgeId) :
    Prop where
  links : D'.Links D'.Linked
  numNodes_le : D.numNodes ≤ D'.numNodes
  numEdges_le : D.numEdges ≤ D'.numEdges
  pred : ∀ x, x < D.numNodes → D'.getNumberPredEdges x = D.getNumberPredEdges x
  succ : ∀ x, x < D.numNodes → D'.getNumberSuccEdges x = D.getNumberSuccEdges x
  phony : ∀ e, e < D.numEdges → (D.type e).isPhony = true → D'.edge e = D.edge e
  chain : ∀ e, D.Linked e → Chain D D' e (first e) (last e)
  mem_chain : ∀ f, D'.Linked f → ∃! e, D.Linked e ∧ f ∈ first e ++ [last e]

section Refines

variable {D D' : Dag} {first : EdgeId → List EdgeId} {last : EdgeId → EdgeId} {f : EdgeId}
  {b : BlockId}

theorem Links.refines (links : D.Links D.Linked) : Refines D D (fun _ => []) id where
  links := links
  numNodes_le := Nat.le_refl _
  numEdges_le := Nat.le_refl _
  pred _ _ := rfl
  succ _ _ := rfl
  phony _ _ _ := rfl
  chain e he :=
    { path := EdgePath.cons_iff.mpr ⟨he, rfl, .nil _⟩
      inner := fun _ hf => absurd hf List.not_mem_nil
      carries := Carries.of_edge_eq rfl }
  mem_chain f hf := by
    refine ⟨f, ⟨hf, List.mem_singleton_self f⟩, ?_⟩
    rintro e ⟨_, he⟩
    exact (List.mem_singleton.mp he).symm

/-- The step: one more edge is split. -/
theorem Refines.split (refines : Refines D D' first last)
    (hnormal : ∀ e, D.Linked e → D.type e = .normal → D.IsBare e) (hf : D'.Linked f) :
    Refines D (D'.splitUpdate f b) (fun e => D'.splitFirst f (first e) (last e))
      (fun e => D'.splitLast f (last e)) where
  links := refines.links.split hf
  numNodes_le := by
    rw [splitUpdate_numNodes]
    exact Nat.le_succ_of_le refines.numNodes_le
  numEdges_le := by
    rw [splitUpdate_numEdges]
    exact Nat.le_succ_of_le refines.numEdges_le
  pred x hx := (refines.links.getNumberPredEdges_split hf
    (Nat.lt_of_lt_of_le hx refines.numNodes_le)).trans (refines.pred x hx)
  succ x hx := (getNumberSuccEdges_split refines.links hf
    (Nat.lt_of_lt_of_le hx refines.numNodes_le)).trans (refines.succ x hx)
  phony e he hphony := by
    have hedge := refines.phony e he hphony
    rw [splitUpdate_edge_of_ne (Nat.lt_of_lt_of_le he refines.numEdges_le), hedge]
    rintro rfl
    have hreal := hf.2
    rw [Dag.type, hedge] at hreal
    exact absurd hphony (Bool.eq_false_iff.mp hreal)
  chain e he := (refines.chain e he).split he (hnormal e he) refines.links
    refines.numNodes_le hf
  mem_chain g hg := by
    have hmem : ∀ e, g ∈ D'.splitFirst f (first e) (last e) ++ [D'.splitLast f (last e)] ↔
        g ∈ first e ++ [last e] ∨ g = D'.numEdges ∧ f ∈ first e ++ [last e] := by
      intro e
      rw [splitFirst_append_splitLast, mem_flatMap_splitInto]
    simp only [hmem]
    rcases (splitUpdate_linked hf.1 hf g).mp hg with rfl | hg
    · -- the new edge belongs where the former edge belongs
      obtain ⟨e, ⟨he, hfe⟩, honly⟩ := refines.mem_chain f hf
      refine ⟨e, ⟨he, .inr ⟨rfl, hfe⟩⟩, ?_⟩
      rintro e' ⟨he', hmem' | ⟨_, hmem'⟩⟩
      · exact absurd ((refines.chain e' he').path.allowed_of_mem _ hmem').1
          (Nat.lt_irrefl _)
      · exact honly e' ⟨he', hmem'⟩
    · obtain ⟨e, ⟨he, hge⟩, honly⟩ := refines.mem_chain g hg
      refine ⟨e, ⟨he, .inl hge⟩, ?_⟩
      rintro e' ⟨he', hmem' | ⟨hnew, _⟩⟩
      · exact honly e' ⟨he', hmem'⟩
      · exact absurd hnew (Nat.ne_of_lt hg.1)

/-- The run: any sequence of splits. -/
theorem Links.exists_refines (links : D.Links D.Linked)
    (hnormal : ∀ e, D.Linked e → D.type e = .normal → D.IsBare e)
    {splits : List (EdgeId × BlockId)} (hrun : run splitLinked D splits = some D') :
    ∃ first last, Refines D D' first last := by
  refine run_invariant (P := fun _ D' => ∃ first last, Refines D D' first last) hrun
    ⟨_, _, links.refines⟩ ?_
  rintro before middle ⟨f, b⟩ next _ ⟨first, last, refines⟩ hstep
  obtain ⟨hf, hnext⟩ := Option.ite_none_right_eq_some.mp hstep
  cases hnext
  exact ⟨_, _, refines.split hnormal hf⟩

end Refines

theorem numNodes_numEdges_of_run {D D' : Dag} {splits : List (EdgeId × BlockId)}
    (hrun : run splitLinked D splits = some D') :
    D'.numNodes = D.numNodes + splits.length ∧ D'.numEdges = D.numEdges + splits.length := by
  refine run_invariant (P := fun before D' => D'.numNodes = D.numNodes + before.length ∧
    D'.numEdges = D.numEdges + before.length) hrun ⟨rfl, rfl⟩ ?_
  rintro before middle ⟨f, b⟩ next _ ⟨hnodes, hedges⟩ hstep
  obtain ⟨_, hnext⟩ := Option.ite_none_right_eq_some.mp hstep
  cases hnext
  rw [splitUpdate_numNodes, splitUpdate_numEdges, hnodes, hedges, List.length_append]
  exact ⟨rfl, rfl⟩

/-- `unlinkPhony`, and then any splits of linked edges.  The lists stay consistent and
have no phony edges, every split adds one node and one edge, the old nodes keep the numbers
of their edges, and every edge that was not phony has its chain. -/
theorem unlinkPhony_splitUpdate_consistent {D D' : Dag} (links : D.Links (· < D.numEdges))
    (hnormal : ∀ e, e < D.numEdges → D.type e = .normal →
      (D.edge e).phonyRoot = none ∧ (D.edge e).phonyExit = none)
    {splits : List (EdgeId × BlockId)}
    (hrun : run splitLinked D.unlinkPhony splits = some D') :
    D'.Links D'.Linked ∧
    (D'.numNodes = D.numNodes + splits.length ∧ D'.numEdges = D.numEdges + splits.length) ∧
    (∀ e, e < D.numEdges → (D.type e).isPhony = true → (D'.type e).isPhony = true) ∧
    (∀ e, (D'.type e).isPhony = true → ∀ x, e ∉ D'.succEdges x ∧ e ∉ D'.predEdges x) ∧
    (∀ x, x < D.numNodes →
      D'.getNumberPredEdges x = D.unlinkPhony.getNumberPredEdges x ∧
        D'.getNumberSuccEdges x = D.unlinkPhony.getNumberSuccEdges x) ∧
    ∃ (first : EdgeId → List EdgeId) (last : EdgeId → EdgeId),
      (∀ e, D.Linked e → Chain D D' e (first e) (last e) ∧
        (D.type e = .normal → D'.IsBare (last e))) ∧
      ∀ f, D'.Linked f → ∃! e, D.Linked e ∧ f ∈ first e ++ [last e] := by
  rw [links.unlinkPhony_eq] at hrun ⊢
  have hbare : ∀ e, D.Linked e → D.type e = .normal → D.IsBare e := fun e he htype =>
    ⟨htype, (hnormal e he.1 htype).1, (hnormal e he.1 htype).2⟩
  obtain ⟨first, last, refines⟩ := links.unlinked.exists_refines
    (fun e he htype => { hbare e he htype with }) hrun
  refine ⟨refines.links, numNodes_numEdges_of_run (D := D.unlinked) hrun, ?_, ?_,
    fun x hx => ⟨refines.pred x hx, refines.succ x hx⟩,
    first, last, fun e he => ?_, refines.mem_chain⟩
  · intro e he hphony
    rw [Dag.type, refines.phony e he hphony]
    exact hphony
  · intro e hphony x
    have hunlinked : ¬ D'.Linked e := fun hlinked =>
      Bool.eq_false_iff.mp hlinked.2 hphony
    exact ⟨fun hmem => hunlinked ((refines.links.mem_succEdges x e).mp hmem).1,
      fun hmem => hunlinked ((refines.links.mem_predEdges x e).mp hmem).1⟩
  · have chain := refines.chain e he
    -- unlinking changes the lists, not the edges
    have carries : Carries D D' e (last e) := { chain.carries with }
    exact ⟨⟨chain.path, fun f hf => { chain.inner f hf with }, carries⟩,
      fun htype => carries.isBare (hbare e he htype)⟩

def whileLoopSplits : List (EdgeId × BlockId) := [(3, 4), (8, 5), (3, 6), (2, 7)]

def whileLoopSplit : Dag :=
  (run splitLinked whileLoop.unlinkPhony whileLoopSplits).get (by decide +kernel)

theorem unlinkPhony_splitUpdate_consistent_whileLoop :
    run splitLinked whileLoop.unlinkPhony whileLoopSplits = some whileLoopSplit ∧
      whileLoopSplit.Links whileLoopSplit.Linked ∧
      ∃ first last, Chain whileLoop whileLoopSplit 3 first last := by
  have hrun : run splitLinked whileLoop.unlinkPhony whileLoopSplits = some whileLoopSplit :=
    (Option.some_get _).symm
  obtain ⟨links, _, _, _, _, first, last, hchain, _⟩ :=
    unlinkPhony_splitUpdate_consistent whileLoop_ballLarus.links (by decide) hrun
  exact ⟨hrun, links, first 3, last 3, (hchain 3 ⟨by decide, by decide⟩).1⟩

end Dag

end RrWorkbench.PathLogging
