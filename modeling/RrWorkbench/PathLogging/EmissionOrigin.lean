import RrWorkbench.PathLogging.EmissionInvariant
import Mathlib.Algebra.BigOperators.Group.Finset.Basic

namespace RrWorkbench.PathLogging

/-! What stays of the DAG and the function that the emission started with, and how
much it has still to do. -/

def KeptEdge (D₀ D : Dag) (e : EdgeId) : Prop :=
  D.target e = D₀.target e ∧ D.traverse e = D₀.traverse e

/-- The edge now leads to a new node; the only edge out of this leads to the former
target, and the two do together what the edge did. -/
def SplitEdge (D₀ D : Dag) (e : EdgeId) : Prop :=
  1 < D₀.getNumberSuccEdges (D₀.source e) ∧
  ∃ node new, D.target e = node ∧ D₀.numNodes ≤ node ∧
    D.succEdges node = [new] ∧ D.target new = D₀.target e ∧
    ∀ register,
      let first := D.traverse e register
      let second := D.traverse new first.1
      D₀.traverse e register = (second.1, first.2 ++ second.2)

structure Origin (D₀ : Dag) (F₀ : LlvmFunction) (D : Dag) (F : LlvmFunction)
    (exitRoot : EdgeId) : Prop where
  nodes_le : D₀.numNodes ≤ D.numNodes
  blocks_le : F₀.numBlocks ≤ F.numBlocks
  root : D.root = D₀.root
  exit : D.exit = D₀.exit
  entry : F.entry = F₀.entry
  getBlock : ∀ x, x < D₀.numNodes → D.getBlock x = D₀.getBlock x
  block : ∀ b, b < F₀.numBlocks →
    (F.block b).terminator = (F₀.block b).terminator ∧
      (F.block b).isLandingPad = (F₀.block b).isLandingPad
  linked : ∀ e, D₀.Linked e → D.Linked e
  source : ∀ e, D₀.Linked e → D.source e = D₀.source e
  succEdges : ∀ x, x < D₀.numNodes → D.succEdges x = D₀.succEdges x
  predEdges : ∀ x, x < D₀.numNodes →
    D.getNumberPredEdges x = D₀.getNumberPredEdges x
  new_block : ∀ x b, D₀.numNodes ≤ x → x < D.numNodes →
    D.getBlock x = some b →
    F₀.numBlocks ≤ b ∧ (F.block b).terminator = .br
  new_succ : ∀ x, D₀.numNodes ≤ x → x < D.numNodes →
    D.getNumberSuccEdges x ≤ 1
  new_pred : ∀ x, D₀.numNodes ≤ x → x < D.numNodes →
    D.getNumberPredEdges x ≤ 1
  edge : ∀ e, D₀.Linked e → e ≠ exitRoot → KeptEdge D₀ D e ∨ SplitEdge D₀ D e
  callPhony : ∀ e, e < D.numEdges → D.type e = .calledgePhony →
    e < D₀.numEdges ∧ D₀.type e = .calledgePhony

theorem Origin.refl (D : Dag) (F : LlvmFunction) {exitRoot : EdgeId} :
    Origin D F D F exitRoot where
  nodes_le := Nat.le_refl _
  blocks_le := Nat.le_refl _
  root := rfl
  exit := rfl
  entry := rfl
  getBlock _ _ := rfl
  block _ _ := ⟨rfl, rfl⟩
  linked _ h := h
  source _ _ := rfl
  succEdges _ _ := rfl
  predEdges _ _ := rfl
  new_block _ _ hle hlt := absurd hlt (Nat.not_lt.mpr hle)
  new_succ _ hle hlt := absurd hlt (Nat.not_lt.mpr hle)
  new_pred _ hle hlt := absurd hlt (Nat.not_lt.mpr hle)
  edge _ _ _ := .inl ⟨rfl, rfl⟩
  callPhony _ hlt htype := ⟨hlt, htype⟩

section Split

variable {D₀ D : Dag} {F₀ F : LlvmFunction} {G : Ghost} {exitRoot e : EdgeId}
  {source target : BlockId} {succNum : Nat}

theorem Origin.kept_of_target_lt (origin : Origin D₀ F₀ D F exitRoot)
    (hlinked : D₀.Linked e) (hne : e ≠ exitRoot) (htarget : D.target e < D₀.numNodes) :
    KeptEdge D₀ D e := by
  refine (origin.edge e hlinked hne).resolve_right ?_
  rintro ⟨_, node, new, hnode, hle, _⟩
  rw [hnode] at htarget
  exact absurd htarget (Nat.not_lt.mpr hle)

theorem Origin.newEdge (origin : Origin D₀ F₀ D F exitRoot)
    (layout₀ : Layout D₀ F₀ exitRoot) (layout : Layout D F exitRoot) {node : NodeId}
    {new : EdgeId} (hle : D₀.numNodes ≤ node) (hsucc : D.succEdges node = [new]) :
    D.Linked new ∧ D.source new = node ∧ new ≠ exitRoot := by
  obtain ⟨hlinked, hsource⟩ := (layout.mem_succEdges node new).mp (by simp [hsucc])
  refine ⟨hlinked, hsource, ?_⟩
  rintro rfl
  rw [layout.exitRoot_source, origin.exit] at hsource
  rw [← hsource] at hle
  exact absurd layout₀.exit_lt (Nat.not_lt.mpr hle)

/-- Only edges of the first graph are split: the new nodes branch nowhere. -/
theorem Origin.linked_of_split (origin : Origin D₀ F₀ D F exitRoot)
    (site : SplitSite G D F exitRoot e source succNum target)
    (layout₀ : Layout D₀ F₀ exitRoot) :
    D₀.Linked e ∧ D.source e < D₀.numNodes ∧ D.target e < D₀.numNodes := by
  have hsource : D.source e < D₀.numNodes := by
    refine Nat.lt_of_not_le fun hle => ?_
    exact absurd site.succ
      (Nat.not_lt.mpr (origin.new_succ _ hle site.source_lt))
  have htarget : D.target e < D₀.numNodes := by
    refine Nat.lt_of_not_le fun hle => ?_
    exact absurd site.pred
      (Nat.not_lt.mpr (origin.new_pred _ hle site.target_lt))
  have hmem : e ∈ D.succEdges (D.source e) :=
    (site.invariant.layout.mem_succEdges _ e).mpr ⟨site.linked, rfl⟩
  rw [origin.succEdges _ hsource] at hmem
  exact ⟨((layout₀.mem_succEdges _ e).mp hmem).1, hsource, htarget⟩

theorem Origin.splitEdge (origin : Origin D₀ F₀ D F exitRoot)
    (site : SplitSite G D F exitRoot e source succNum target)
    (layout₀ : Layout D₀ F₀ exitRoot) :
    SplitEdge D₀ (D.splitUpdate e F.numBlocks) e := by
  obtain ⟨hlinked₀, hsource, htarget⟩ := origin.linked_of_split site layout₀
  have hkept := origin.kept_of_target_lt hlinked₀ site.ne htarget
  refine ⟨?_, D.numNodes, D.numEdges, ?_, origin.nodes_le, ?_, ?_, ?_⟩
  · have hsucc := site.succ
    rw [Dag.getNumberSuccEdges, origin.succEdges _ hsource,
      origin.source e hlinked₀] at hsucc
    exact hsucc
  · rw [Dag.splitUpdate_target site.linked.1, if_neg (Nat.ne_of_lt site.linked.1),
      if_pos rfl]
  · rw [Dag.splitUpdate_succEdges site.target_lt, if_pos rfl]
  · rw [Dag.splitUpdate_target site.linked.1, if_pos rfl]
    exact hkept.1
  · intro register
    rw [← hkept.2]
    exact (site.invariant.marks e site.linked site.ne).traverse_halves
      site.linked register

theorem Origin.edge_split (origin : Origin D₀ F₀ D F exitRoot)
    (site : SplitSite G D F exitRoot e source succNum target)
    (layout₀ : Layout D₀ F₀ exitRoot) {f : EdgeId} (hf : D₀.Linked f)
    (hroot : f ≠ exitRoot) (hfe : f ≠ e) :
    KeptEdge D₀ (D.splitUpdate e F.numBlocks) f ∨
      SplitEdge D₀ (D.splitUpdate e F.numBlocks) f := by
  have layout := site.invariant.layout
  have hflinked := origin.linked f hf
  have traverse : ∀ g, D.Linked g → g ≠ exitRoot → g ≠ e →
      (D.splitUpdate e F.numBlocks).traverse g = D.traverse g := by
    intro g hg hroot hne
    exact (site.invariant.marks g hg hroot).traverse_split site.linked hg hne
  rcases origin.edge f hf hroot with hkept | ⟨hbranch, node, new, hnode, hle, hsucc,
    hnewTarget, hhalves⟩
  · exact .inl ⟨(site.target_old hflinked hfe).trans hkept.1,
      (traverse f hflinked hroot hfe).trans hkept.2⟩
  · have hnodeLt : node < D.numNodes := hnode ▸ layout.target_lt f hflinked
    obtain ⟨hnewLinked, hnewSource, hnewRoot⟩ := origin.newEdge layout₀ layout hle hsucc
    have hnewNe : new ≠ e := by
      rintro rfl
      have hbranch := site.succ
      rw [hnewSource, Dag.getNumberSuccEdges, hsucc] at hbranch
      exact absurd hbranch (Nat.lt_irrefl _)
    refine .inr ⟨hbranch, node, new, (site.target_old hflinked hfe).trans hnode, hle,
      (site.succEdges_old hnodeLt).trans hsucc,
      (site.target_old hnewLinked hnewNe).trans hnewTarget, ?_⟩
    intro register
    rw [traverse f hflinked hroot hfe, traverse new hnewLinked hnewRoot hnewNe]
    exact hhalves register

theorem Origin.callPhony_split (origin : Origin D₀ F₀ D F exitRoot)
    (site : SplitSite G D F exitRoot e source succNum target) {f : EdgeId}
    (hf : f < (D.splitUpdate e F.numBlocks).numEdges)
    (htype : (D.splitUpdate e F.numBlocks).type f = .calledgePhony) :
    f < D₀.numEdges ∧ D₀.type f = .calledgePhony := by
  have hunlinked : ¬ (D.splitUpdate e F.numBlocks).Linked f := by
    intro hlinked
    have hreal := hlinked.2
    rw [htype] at hreal
    contradiction
  rw [Dag.splitUpdate_linked site.linked.1 site.linked, not_or] at hunlinked
  have hfe : f ≠ e := by
    rintro rfl
    exact hunlinked.2 site.linked
  rw [Dag.splitUpdate_numEdges] at hf
  have hlt := Nat.lt_of_le_of_ne (Nat.le_of_lt_succ hf) hunlinked.1
  rw [Dag.type, Dag.splitUpdate_edge_of_ne hlt hfe] at htype
  exact origin.callPhony f hlt htype

theorem Origin.split (origin : Origin D₀ F₀ D F exitRoot)
    (site : SplitSite G D F exitRoot e source succNum target)
    (layout₀ : Layout D₀ F₀ exitRoot) :
    Origin D₀ F₀ (D.splitUpdate e F.numBlocks)
      (F.withSplitEdge source succNum target) exitRoot := by
  have layout := site.invariant.layout
  have hold : ∀ x, x < D₀.numNodes → x < D.numNodes :=
    fun x hx => Nat.lt_of_lt_of_le hx origin.nodes_le
  have hnew : ∀ x, x < (D.splitUpdate e F.numBlocks).numNodes →
      x = D.numNodes ∨ x < D.numNodes := by
    intro x hx
    rw [Dag.splitUpdate_numNodes] at hx
    exact (Nat.lt_succ_iff_lt_or_eq.mp hx).symm
  refine
    { nodes_le := ?_
      blocks_le := Nat.le_succ_of_le origin.blocks_le
      root := Dag.splitUpdate_root.trans origin.root
      exit := Dag.splitUpdate_exit.trans origin.exit
      entry := origin.entry
      getBlock := fun x hx =>
        (site.getBlock_old (hold x hx)).trans (origin.getBlock x hx)
      block := ?_
      linked := fun f hf =>
        (Dag.splitUpdate_linked site.linked.1 site.linked f).mpr
          (.inr (origin.linked f hf))
      source := fun f hf =>
        (site.source_old (origin.linked f hf)).trans (origin.source f hf)
      succEdges := fun x hx =>
        (site.succEdges_old (hold x hx)).trans (origin.succEdges x hx)
      predEdges := fun x hx =>
        (layout.links.getNumberPredEdges_split site.linked (hold x hx)).trans
          (origin.predEdges x hx)
      new_block := ?_
      new_succ := ?_
      new_pred := ?_
      edge := ?_
      callPhony := fun f hf htype => origin.callPhony_split site hf htype }
  · rw [Dag.splitUpdate_numNodes]
    exact Nat.le_succ_of_le origin.nodes_le
  · intro b hb
    have hne : b ≠ F.numBlocks :=
      Nat.ne_of_lt (Nat.lt_of_lt_of_le hb origin.blocks_le)
    exact ⟨(LlvmFunction.withSplitEdge_block_of_ne hne).1.trans
        (origin.block b hb).1,
      (LlvmFunction.withSplitEdge_block_of_ne hne).2.1.trans
        (origin.block b hb).2⟩
  · intro x b hle hx hb
    rcases hnew x hx with rfl | hlt
    · rw [site.getBlock_new] at hb
      cases hb
      rw [LlvmFunction.withSplitEdge_block_new]
      exact ⟨origin.blocks_le, rfl⟩
    · rw [site.getBlock_old hlt] at hb
      obtain ⟨hb₀, hterminator⟩ := origin.new_block x b hle hlt hb
      have hblt := layout.block_lt hlt hb
      exact ⟨hb₀, (LlvmFunction.withSplitEdge_block_of_ne
        (Nat.ne_of_lt hblt)).1.trans hterminator⟩
  · intro x hle hx
    rcases hnew x hx with rfl | hlt
    · simp [Dag.getNumberSuccEdges, Dag.splitUpdate_succEdges site.target_lt]
    · rw [Dag.getNumberSuccEdges, site.succEdges_old hlt]
      exact origin.new_succ x hle hlt
  · intro x hle hx
    rcases hnew x hx with rfl | hlt
    · simp [Dag.getNumberPredEdges, Dag.splitUpdate_predEdges site.target_lt]
    · rw [layout.links.getNumberPredEdges_split site.linked hlt]
      exact origin.new_pred x hle hlt
  · intro f hf hroot
    by_cases hfe : f = e
    · subst hfe
      exact .inr (origin.splitEdge site layout₀)
    · exact origin.edge_split site layout₀ hf hroot hfe

end Split

/-! Which edges have instrumentation. -/

def Dag.flags (D : Dag) (e : EdgeId) : Bool := (D.edge e).hasInstrumentation

def Dag.withFlags (D : Dag) (flags : EdgeId → Bool) : Dag :=
  { D with edge := fun e => { D.edge e with hasInstrumentation := flags e } }

theorem Dag.setHasInstrumentation_eq (D : Dag) (e : EdgeId) :
    D.setHasInstrumentation e = D.withFlags (Function.update D.flags e true) := by
  simp only [Dag.setHasInstrumentation, Dag.modifyEdge, Dag.withFlags]
  congr 1
  funext f
  by_cases hf : f = e
  · subst hf
    simp
  · simp [Function.update_of_ne hf, Dag.flags]

theorem Origin.withFlags {D₀ D : Dag} {F₀ F : LlvmFunction} {exitRoot : EdgeId}
    (origin : Origin D₀ F₀ D F exitRoot) (flags : EdgeId → Bool) :
    Origin D₀ F₀ (D.withFlags flags) F exitRoot :=
  { origin with }

theorem EdgeMarks.withFlags {live : NodeId → Bool} {D : Dag} {e : EdgeId}
    (marks : EdgeMarks live D e) (flags : EdgeId → Bool) :
    EdgeMarks live (D.withFlags flags) e := by
  refine ⟨fun h => { marks.normal h with
      join := fun hinit hexit => ((marks.normal h).join hinit hexit).imp id
        fun hplain g hg => { hplain g hg with } }, fun h => ?_⟩
  obtain ⟨top, bottom, cut⟩ := marks.cut h
  exact ⟨top, bottom, { cut with }⟩

theorem EmissionInvariant.withFlags {G : Ghost} {D : Dag} {F : LlvmFunction}
    {exitRoot : EdgeId} (inv : EmissionInvariant G D F exitRoot)
    (flags : EdgeId → Bool) :
    EmissionInvariant G (D.withFlags flags) F exitRoot :=
  { inv with
    layout := { inv.layout with }
    marks := fun e he hne => (inv.marks e he hne).withFlags flags
    fresh := fun x hx hnot => { inv.fresh x hx hnot with }
    pathNumbers := fun e he hundone harrived => by
      have numbers := inv.pathNumbers e he hundone harrived
      exact ⟨numbers.ending, fun hlive => (numbers.starting hlive).imp id
        fun plain => { plain with }⟩
    join := fun x b hx hb hpred => { inv.join x b hx hb hpred with }
    coded := fun e hdone hne => (inv.coded e hdone hne).imp
      (fun coded => { coded with }) id }

/-! The measure of the recursion: an edge that may be split counts for its two
halves. -/

def Dag.pendingAt (D : Dag) (e : EdgeId) : Nat :=
  if (D.type e).isPhony ∨ (D.edge e).hasInstrumentation then 0
  else if 1 < D.getNumberSuccEdges (D.source e) then 2
  else 1

def Dag.pending (D : Dag) : Nat :=
  ∑ e ∈ Finset.range D.numEdges, D.pendingAt e

theorem Dag.pending_withFlags {D : Dag} {e : EdgeId} (he : e < D.numEdges) :
    (D.withFlags (Function.update D.flags e true)).pending + D.pendingAt e =
      D.pending := by
  have hmem : e ∈ Finset.range D.numEdges := Finset.mem_range.mpr he
  have hself : (D.withFlags (Function.update D.flags e true)).pendingAt e = 0 :=
    if_pos (.inr (Function.update_self ..))
  have hother : ∀ f ∈ (Finset.range D.numEdges).erase e,
      (D.withFlags (Function.update D.flags e true)).pendingAt f =
        D.pendingAt f := by
    intro f hf
    have hne := (Finset.mem_erase.mp hf).1
    have hflag : ((D.withFlags (Function.update D.flags e true)).edge
        f).hasInstrumentation = (D.edge f).hasInstrumentation :=
      Function.update_of_ne hne _ _
    unfold Dag.pendingAt
    rw [hflag]
    rfl
  unfold Dag.pending
  change ∑ f ∈ Finset.range D.numEdges, _ + _ = _
  rw [← Finset.add_sum_erase _ _ hmem, ← Finset.add_sum_erase _ D.pendingAt hmem,
    hself, Finset.sum_congr rfl hother, Nat.zero_add, Nat.add_comm]

theorem SplitSite.pending {D : Dag} {F : LlvmFunction} {G : Ghost}
    {exitRoot e : EdgeId} {source target : BlockId} {succNum : Nat}
    (site : SplitSite G D F exitRoot e source succNum target)
    (hflag : (D.edge e).hasInstrumentation = true) :
    (D.splitUpdate e F.numBlocks).pending = D.pending + 1 := by
  have he := site.linked.1
  have hnew : (D.splitUpdate e F.numBlocks).pendingAt D.numEdges = 1 := by
    have hlinked : (D.splitUpdate e F.numBlocks).Linked D.numEdges :=
      (Dag.splitUpdate_linked he site.linked _).mpr (.inl rfl)
    have hflagNew : ((D.splitUpdate e F.numBlocks).edge
        D.numEdges).hasInstrumentation = false := by
      rw [Dag.splitUpdate_edge_new he, Dag.newEdge]
      split
      all_goals rfl
    have hsucc : (D.splitUpdate e F.numBlocks).getNumberSuccEdges
        ((D.splitUpdate e F.numBlocks).source D.numEdges) = 1 := by
      rw [Dag.splitUpdate_source he, if_pos rfl, Dag.getNumberSuccEdges,
        Dag.splitUpdate_succEdges site.target_lt, if_pos rfl]
      rfl
    simp [Dag.pendingAt, hlinked.2, hflagNew, hsucc]
  have hold : ∀ f ∈ Finset.range D.numEdges,
      (D.splitUpdate e F.numBlocks).pendingAt f = D.pendingAt f := by
    intro f hf
    have hlt := Finset.mem_range.mp hf
    by_cases hfe : f = e
    · subst hfe
      have hflagFormer : ((D.splitUpdate f F.numBlocks).edge
          f).hasInstrumentation = true := by
        rw [Dag.splitUpdate_edge_former he, formerEdge_hasInstrumentation]
        exact hflag
      rw [Dag.pendingAt, if_pos (.inr hflagFormer), Dag.pendingAt,
        if_pos (.inr hflag)]
    · have hedge : (D.splitUpdate e F.numBlocks).edge f = D.edge f :=
        Dag.splitUpdate_edge_of_ne hlt hfe
      have htype : (D.splitUpdate e F.numBlocks).type f = D.type f :=
        congrArg Edge.type hedge
      by_cases hphony : (D.type f).isPhony = true
      · rw [Dag.pendingAt, if_pos (.inl (htype ▸ hphony)), Dag.pendingAt,
          if_pos (.inl hphony)]
      · have hlinked : D.Linked f := ⟨hlt, Bool.eq_false_iff.mpr hphony⟩
        unfold Dag.pendingAt Dag.getNumberSuccEdges
        rw [htype, hedge, site.source_old hlinked, site.succEdges_old
          (site.invariant.layout.source_lt f hlinked)]
  rw [Dag.pending, Dag.splitUpdate_numEdges, Finset.sum_range_succ, hnew,
    Finset.sum_congr rfl hold, Dag.pending]

end RrWorkbench.PathLogging
