import RrWorkbench.PathLogging.EmissionOrigin
import RrWorkbench.PathLogging.EmissionSource

namespace RrWorkbench.PathLogging

/-! `instrument` on an edge whose turn it is: the edge is put into its source or its
target, split if it is critical, or given up if LLVM does not split it. -/

section SplitCritical

variable {G : Ghost} {D : Dag} {F : LlvmFunction} {exitRoot e : EdgeId}
  {source target : BlockId} {succNum : Nat} (splitter : SplitCriticalEdge)

theorem splitCritical_of_noncritical
    (hnoncritical : D.getNumberSuccEdges (D.source e) ≤ 1 ∨
      D.getNumberPredEdges (D.target e) = 1) :
    Emission.splitCritical splitter ⟨D, F⟩ e = some ⟨D, F⟩ := by
  unfold Emission.splitCritical
  dsimp only
  split
  · rw [if_pos hnoncritical]
  · rfl

/-- A critical edge of an `indirectbr` or into a landing pad is left alone. -/
theorem splitCritical_of_unsplittable (layout : Layout D F exitRoot)
    (hlinked : D.Linked e) (unsplittable : Unsplittable D F e) :
    Emission.splitCritical splitter ⟨D, F⟩ e = none ∨
      Emission.splitCritical splitter ⟨D, F⟩ e = some ⟨D, F⟩ := by
  obtain ⟨hsucc, hpred, source, target, hsource, htarget, hcase⟩ := unsplittable
  have hcritical : ¬ (D.getNumberSuccEdges (D.source e) ≤ 1 ∨
      D.getNumberPredEdges (D.target e) = 1) := by
    rintro (h | h)
    · exact absurd hsucc (Nat.not_lt.mpr h)
    · exact absurd hpred (Nat.not_lt.mpr (Nat.le_of_eq h))
  unfold Emission.splitCritical Emission.getSuccessorNumber
  simp only [hsource, htarget, if_neg hcritical]
  by_cases hindirect : (F.block source).terminator = .indirectbr
  · exact .inl (if_pos hindirect)
  · right
    have hmem : target ∈ F.successors source := List.count_pos_iff.mp
      (layout.count_successors_pos hlinked hsource htarget)
    rw [if_neg hindirect, splitter.split_landingPad F source target _
      (List.getElem?_idxOf hmem) (hcase.resolve_left hindirect)]

theorem splitCritical_of_critical (hsource : D.getBlock (D.source e) = some source)
    (htarget : D.getBlock (D.target e) = some target) (hsourceLt : source < F.numBlocks)
    (htargetLt : target < F.numBlocks)
    (hsuccessor : (F.successors source)[succNum]? = some target)
    (hindex : (F.successors source).idxOf target = succNum)
    (hindirect : (F.block source).terminator ≠ .indirectbr)
    (hpad : (F.block target).isLandingPad = false)
    (hcritical : ¬ (D.getNumberSuccEdges (D.source e) ≤ 1 ∨
      D.getNumberPredEdges (D.target e) = 1))
    (hcriticalEdge : F.isCriticalEdge source target) :
    Emission.splitCritical splitter ⟨D, F⟩ e =
      some ⟨D.splitUpdate e F.numBlocks, F.withSplitEdge source succNum target⟩ := by
  have hsplit := splitter.split_critical F source target succNum hsuccessor hpad hindirect
    hcriticalEdge
  have hnew : ((F.withSplitEdge source succNum target).successors
      source)[succNum]? = some F.numBlocks := by
    rw [LlvmFunction.withSplitEdge_successors hsourceLt htargetLt,
      if_neg (Nat.ne_of_lt hsourceLt), if_pos rfl]
    exact List.getElem?_set_self (List.getElem?_eq_some_iff.mp hsuccessor).1
  unfold Emission.splitCritical Emission.getSuccessorNumber
  simp only [hsource, htarget, if_neg hcritical, if_neg hindirect, hindex, hsplit, hnew]

theorem splitCritical_of_site
    (site : SplitSite G D F exitRoot e source succNum target)
    (hindex : (F.successors source).idxOf target = succNum)
    (hunsplittable : ¬ Unsplittable D F e) :
    Emission.splitCritical splitter ⟨D, F⟩ e =
      some ⟨D.splitUpdate e F.numBlocks,
        F.withSplitEdge source succNum target⟩ := by
  have layout := site.invariant.layout
  have hcase : ¬ ((F.block source).terminator = .indirectbr ∨
      (F.block target).isLandingPad = true) := fun h =>
    hunsplittable ⟨site.succ, site.pred, source, target, site.source,
      site.target, h⟩
  rw [not_or] at hcase
  refine splitCritical_of_critical splitter site.source site.target site.sourceBlock_lt
    site.targetBlock_lt site.successor hindex hcase.1 (Bool.eq_false_iff.mpr hcase.2) ?_ ⟨?_, ?_⟩
  · rintro (h | h)
    · exact absurd site.succ (Nat.not_lt.mpr h)
    · exact absurd site.pred (Nat.not_lt.mpr (Nat.le_of_eq h))
  · rw [layout.length_successors site.source_lt site.source site.succ]
    exact site.succ
  · exact layout.one_lt_length_predecessors site.linked site.ne site.source
      site.target site.pred

theorem SplitSite.predEdges_former
    (site : SplitSite G D F exitRoot e source succNum target) :
    (D.splitUpdate e F.numBlocks).getNumberPredEdges
      ((D.splitUpdate e F.numBlocks).target e) = 1 := by
  rw [Dag.splitUpdate_target site.linked.1, if_neg (Nat.ne_of_lt site.linked.1),
    if_pos rfl, Dag.getNumberPredEdges, Dag.splitUpdate_predEdges site.target_lt,
    if_pos rfl]
  rfl

end SplitCritical

structure Ready (D₀ : Dag) (F₀ : LlvmFunction) (exitRoot : EdgeId) (G : Ghost)
    (st : Emission) : Prop where
  layout : Layout D₀ F₀ exitRoot
  invariant : EmissionInvariant G st.dag st.func exitRoot
  origin : Origin D₀ F₀ st.dag st.func exitRoot
  flags : ∀ e, st.dag.Linked e →
    ((st.dag.edge e).hasInstrumentation = true ↔ G.done e)

structure Progress (G : Ghost) (st : Emission) (G' : Ghost) (st' : Emission) :
    Prop where
  nodes_le : st.dag.numNodes ≤ st'.dag.numNodes
  linked : ∀ e, st.dag.Linked e → st'.dag.Linked e
  source : ∀ e, st.dag.Linked e → st'.dag.source e = st.dag.source e
  succEdges : ∀ x, x < st.dag.numNodes →
    st'.dag.succEdges x = st.dag.succEdges x
  done : ∀ e, G.done e → G'.done e
  arrived : ∀ x, G.arrived x → G'.arrived x
  pending : st'.dag.pending ≤ st.dag.pending

namespace Progress

theorem refl (G : Ghost) (st : Emission) : Progress G st G st where
  nodes_le := Nat.le_refl _
  linked _ h := h
  source _ _ := rfl
  succEdges _ _ := rfl
  done _ h := h
  arrived _ h := h
  pending := Nat.le_refl _

theorem trans {G G' G'' : Ghost} {st st' st'' : Emission}
    (first : Progress G st G' st') (second : Progress G' st' G'' st'') :
    Progress G st G'' st'' where
  nodes_le := Nat.le_trans first.nodes_le second.nodes_le
  linked e he := second.linked e (first.linked e he)
  source e he :=
    (second.source e (first.linked e he)).trans (first.source e he)
  succEdges x hx :=
    (second.succEdges x (Nat.lt_of_lt_of_le hx first.nodes_le)).trans
      (first.succEdges x hx)
  done e he := second.done e (first.done e he)
  arrived x hx := second.arrived x (first.arrived x hx)
  pending := Nat.le_trans second.pending first.pending

end Progress

/-- The turn of `e`: the edges before it among the successors of its source are
done. -/
structure Turn (D₀ : Dag) (F₀ : LlvmFunction) (exitRoot : EdgeId) (G : Ghost)
    (st : Emission) (e : EdgeId) (before : List EdgeId) : Prop where
  ready : Ready D₀ F₀ exitRoot G st
  linked : st.dag.Linked e
  ne : e ≠ exitRoot
  undone : ¬ G.done e
  source_arrived : G.arrived (st.dag.source e)
  position : ∃ after, st.dag.succEdges (st.dag.source e) = before ++ e :: after
  before_done : ∀ f ∈ before, G.done f

/-- Nothing is new in `D'`, or there is a new node on `e`, an edge of the first
graph. -/
inductive Grown (D₀ D D' : Dag) (e : EdgeId) : Prop
  | same (numNodes : D'.numNodes = D.numNodes) (numEdges : D'.numEdges = D.numEdges)
  | split (linked : D₀.Linked e) (target : D'.target e = D.numNodes)
      (numNodes : D'.numNodes = D.numNodes + 1)

structure Instrumented (D₀ : Dag) (F₀ : LlvmFunction) (exitRoot : EdgeId)
    (G : Ghost) (st : Emission) (e : EdgeId) (G' : Ghost) (st' : Emission)
    (reached : Option NodeId) : Prop where
  ready : Ready D₀ F₀ exitRoot G' st'
  progress : Progress G st G' st'
  pending : st'.dag.pending < st.dag.pending
  done : ∀ f, G'.done f ↔ G.done f ∨ f = e
  arrived : ∀ x, G'.arrived x ↔ G.arrived x ∨ reached = some x
  new_arrived : ∀ x, st.dag.numNodes ≤ x → x < st'.dag.numNodes → G'.arrived x
  split : st.dag.numEdges < st'.dag.numEdges → D₀.Linked e

/-- The edge is marked, and split if need be; what remains is to put its instructions
somewhere. -/
structure Prepared (D₀ : Dag) (F₀ : LlvmFunction) (exitRoot : EdgeId) (G : Ghost)
    (st : Emission) (e : EdgeId) (G₁ : Ghost) (st₁ : Emission) : Prop where
  layout : Layout D₀ F₀ exitRoot
  site : EdgeSite G₁ st₁.dag st₁.func exitRoot e
  origin : Origin D₀ F₀ st₁.dag st₁.func exitRoot
  flags : ∀ f, st₁.dag.Linked f →
    ((st₁.dag.edge f).hasInstrumentation = true ↔ G₁.done f ∨ f = e)
  progress : Progress G st G₁ st₁
  pending : st₁.dag.pending < st.dag.pending
  done : G₁.done = G.done
  arrived : G₁.arrived = G.arrived
  grown : Grown D₀ st.dag st₁.dag e

namespace Prepared

variable {D₀ : Dag} {F₀ : LlvmFunction} {exitRoot e : EdgeId} {G G₁ : Ghost}
  {st st₁ : Emission}

theorem instrumented_of_extension
    (prepared : Prepared D₀ F₀ exitRoot G st e G₁ st₁) {G' : Ghost}
    {numbers : NodeId → Numbers} {code : BlockId → Code} {nextInst : Nat}
    (extension : Extension G₁ G' st₁.dag st₁.func exitRoot e numbers code
      nextInst) :
    Instrumented D₀ F₀ exitRoot G st e G'
      ⟨st₁.dag.withNumbers numbers, st₁.func.withCode code nextInst⟩
      (some (st₁.dag.target e)) where
  ready :=
    { layout := prepared.layout
      invariant := extension.step
      origin := { prepared.origin with }
      flags := fun f hf => (prepared.flags f hf).trans (extension.done f).symm }
  progress := prepared.progress.trans
    { nodes_le := Nat.le_refl _
      linked := fun _ h => h
      source := fun _ _ => rfl
      succEdges := fun _ _ => rfl
      done := fun f hf => (extension.done f).mpr (.inl hf)
      arrived := fun x hx => (extension.arrived x).mpr (.inl hx)
      pending := Nat.le_refl _ }
  pending := prepared.pending
  done f := by rw [extension.done f, prepared.done]
  arrived x := by
    rw [extension.arrived x, prepared.arrived, Option.some_inj, eq_comm]
  new_arrived x hle hlt := by
    cases prepared.grown with
    | same numNodes _ =>
        exact absurd hlt (Nat.not_lt.mpr (numNodes.symm ▸ hle))
    | split _ target numNodes =>
        have hle' : x ≤ st.dag.numNodes :=
          Nat.le_of_lt_succ (Nat.lt_of_lt_of_eq hlt numNodes)
        exact (extension.arrived x).mpr
          (.inr ((Nat.le_antisymm hle' hle).trans target.symm))
  split hlt := by
    cases prepared.grown with
    | same _ numEdges =>
        exact absurd hlt (Nat.not_lt.mpr (Nat.le_of_eq numEdges))
    | split linked _ _ => exact linked

theorem instrumentNode (prepared : Prepared D₀ F₀ exitRoot G st e G₁ st₁)
    (hnoncritical : st₁.dag.getNumberSuccEdges (st₁.dag.source e) ≤ 1 ∨
      st₁.dag.getNumberPredEdges (st₁.dag.target e) = 1) :
    ∃ st' G' reached, st₁.instrumentNode e = .ok (st', reached) ∧
      Instrumented D₀ F₀ exitRoot G st e G' st' reached := by
  have site := prepared.site
  have layout := site.invariant.layout
  by_cases hsucc : st₁.dag.getNumberSuccEdges (st₁.dag.source e) ≤ 1
  · obtain ⟨b, _, hb⟩ := layout.block_source site.linked site.ne
    obtain ⟨numbers, code, nextInst, G', hsource, extension⟩ :=
      site.atSource hb hsucc
    refine ⟨_, G', _, ?_, prepared.instrumented_of_extension extension⟩
    rw [Emission.instrumentNode, if_pos ⟨by simp [hb], hsucc⟩]
    exact congrArg (· >>= _) hsource
  · have hpred := hnoncritical.resolve_left hsucc
    have hexit := layout.target_ne_exit (Nat.not_le.mp hsucc)
      ((layout.mem_succEdges _ e).mpr ⟨site.linked, rfl⟩)
    obtain ⟨b, _, hb⟩ := layout.block_target site.linked hexit
    obtain ⟨numbers, code, nextInst, G', htarget, extension⟩ :=
      site.atTarget hb (Nat.not_le.mp hsucc) hpred
    refine ⟨_, G', _, ?_, prepared.instrumented_of_extension extension⟩
    rw [Emission.instrumentNode, if_neg (fun h => hsucc h.2), if_pos hpred]
    exact congrArg (· >>= _) htarget

theorem split (prepared : Prepared D₀ F₀ exitRoot G st e G₁ st₁)
    {source target : BlockId} {succNum : Nat}
    (site : SplitSite G₁ st₁.dag st₁.func exitRoot e source succNum target)
    (hnodes : st₁.dag.numNodes = st.dag.numNodes)
    (hpending : st₁.dag.pending + 1 < st.dag.pending) :
    Prepared D₀ F₀ exitRoot G st e (G₁.split st₁.dag e)
      ⟨st₁.dag.splitUpdate e st₁.func.numBlocks,
        st₁.func.withSplitEdge source succNum target⟩ := by
  have inv := site.invariant
  have hflag : (st₁.dag.edge e).hasInstrumentation = true :=
    (prepared.flags e site.linked).mpr (.inr rfl)
  have hsplit := site.pending hflag
  refine
    { layout := prepared.layout
      site := ⟨site.split, ?_, site.ne, site.undone, ?_⟩
      origin := prepared.origin.split site prepared.layout
      flags := ?_
      progress := ?_
      pending := by rw [hsplit]; exact hpending
      done := prepared.done
      arrived := prepared.arrived
      grown := ?_ }
  · exact (Dag.splitUpdate_linked site.linked.1 site.linked e).mpr
      (.inr site.linked)
  · rw [site.source_old site.linked]
    exact prepared.site.source_arrived
  · intro f hf
    replace hf := site.linked_cases hf
    rcases hf with rfl | hf
    · have hnew : ((st₁.dag.splitUpdate e st₁.func.numBlocks).edge
          st₁.dag.numEdges).hasInstrumentation = false := by
        rw [Dag.splitUpdate_edge_new site.linked.1, Dag.newEdge]
        split
        all_goals rfl
      rw [hnew]
      refine ⟨fun h => absurd h Bool.false_ne_true, ?_⟩
      rintro (hdone | heq)
      · exact absurd (inv.done_linked _ hdone).1 (Nat.lt_irrefl _)
      · exact absurd heq.symm (Nat.ne_of_lt site.linked.1)
    · have hedge : ((st₁.dag.splitUpdate e st₁.func.numBlocks).edge
          f).hasInstrumentation = (st₁.dag.edge f).hasInstrumentation := by
        by_cases hfe : f = e
        · subst hfe
          rw [Dag.splitUpdate_edge_former site.linked.1, formerEdge_hasInstrumentation]
        · rw [Dag.splitUpdate_edge_of_ne hf.1 hfe]
      rw [hedge]
      exact prepared.flags f hf
  · exact
      { nodes_le := Nat.le_trans prepared.progress.nodes_le
          (by rw [Dag.splitUpdate_numNodes]; exact Nat.le_succ _)
        linked := fun f hf =>
          (Dag.splitUpdate_linked site.linked.1 site.linked f).mpr
            (.inr (prepared.progress.linked f hf))
        source := fun f hf =>
          (site.source_old (prepared.progress.linked f hf)).trans
            (prepared.progress.source f hf)
        succEdges := fun x hx =>
          (site.succEdges_old
            (Nat.lt_of_lt_of_le hx prepared.progress.nodes_le)).trans
            (prepared.progress.succEdges x hx)
        done := prepared.progress.done
        arrived := prepared.progress.arrived
        pending := by rw [hsplit]; exact Nat.le_of_lt hpending }
  · refine .split (prepared.origin.linked_of_split site prepared.layout).1 ?_ ?_
    · rw [Dag.splitUpdate_target site.linked.1, if_neg (Nat.ne_of_lt site.linked.1),
        if_pos rfl, hnodes]
    · rw [Dag.splitUpdate_numNodes, hnodes]

end Prepared

theorem EdgeSite.giveUp {G : Ghost} {D : Dag} {F : LlvmFunction}
    {exitRoot e : EdgeId} (site : EdgeSite G D F exitRoot e)
    (unsplittable : Unsplittable D F e) :
    EmissionInvariant { G with done := fun f => G.done f ∨ f = e } D F
      exitRoot := by
  have inv := site.invariant
  refine
    { inv with
      arrived_over := ?_
      exitRoot_done := .inl inv.exitRoot_done
      done_linked := ?_
      fresh := fun x hx hnot => { inv.fresh x hx hnot with }
      outBack_undone := fun f hf hundone =>
        inv.outBack_undone f hf fun h => hundone (.inl h)
      pathNumbers := fun f hf hundone harrived =>
        { inv.pathNumbers f hf (fun h => hundone (.inl h)) harrived with }
      join := fun x b hx hb hpred => { inv.join x b hx hb hpred with }
      coded := ?_ }
  · intro x hx hroot
    obtain ⟨f, hdone, hne, htarget⟩ := inv.arrived_over x hx hroot
    exact ⟨f, .inl hdone, hne, htarget⟩
  · rintro f (hdone | rfl)
    · exact inv.done_linked f hdone
    · exact site.linked
  · rintro f (hdone | rfl) hne
    · exact (inv.coded f hdone hne).imp (fun coded => { coded with }) id
    · exact .inr unsplittable

namespace Turn

variable {D₀ : Dag} {F₀ : LlvmFunction} {exitRoot e : EdgeId} {G : Ghost}
  {st : Emission} {before : List EdgeId}
  (turn : Turn D₀ F₀ exitRoot G st e before)

include turn

theorem pendingAt_eq : st.dag.pendingAt e =
    if 1 < st.dag.getNumberSuccEdges (st.dag.source e) then 2 else 1 := by
  have hflag : (st.dag.edge e).hasInstrumentation ≠ true := fun h =>
    turn.undone ((turn.ready.flags e turn.linked).mp h)
  have hphony : (st.dag.type e).isPhony ≠ true := by
    rw [turn.linked.2]
    exact Bool.false_ne_true
  unfold Dag.pendingAt
  exact if_neg (not_or.mpr ⟨hphony, hflag⟩)

theorem pendingAt_pos : 0 < st.dag.pendingAt e := by
  rw [turn.pendingAt_eq]
  split <;> decide

theorem prepared_marked :
    Prepared D₀ F₀ exitRoot G st e G
      ⟨st.dag.withFlags (Function.update st.dag.flags e true), st.func⟩ := by
  have ready := turn.ready
  have hpending := Dag.pending_withFlags turn.linked.1
  have hpos := turn.pendingAt_pos
  refine
    { layout := ready.layout
      site := ⟨ready.invariant.withFlags _, turn.linked, turn.ne, turn.undone,
        turn.source_arrived⟩
      origin := ready.origin.withFlags _
      flags := ?_
      progress :=
        { nodes_le := Nat.le_refl _
          linked := fun _ h => h
          source := fun _ _ => rfl
          succEdges := fun _ _ => rfl
          done := fun _ h => h
          arrived := fun _ h => h
          pending := ?_ }
      pending := ?_
      done := rfl
      arrived := rfl
      grown := .same rfl rfl }
  · intro f hf
    change Function.update st.dag.flags e true f = true ↔ _
    by_cases hfe : f = e
    · simp [hfe]
    · rw [Function.update_of_ne hfe]
      simpa [hfe, Dag.flags] using ready.flags f hf
  · change (st.dag.withFlags _).pending ≤ _
    omega
  · change (st.dag.withFlags _).pending < _
    omega

/-- The edges before a critical edge that can be split have other targets: they
would be critical, and neither could they be split. -/
theorem target_ne_before (hsucc : 1 < st.dag.getNumberSuccEdges (st.dag.source e))
    (hpred : 1 < st.dag.getNumberPredEdges (st.dag.target e))
    (hunsplittable : ¬ Unsplittable st.dag st.func e) {f : EdgeId}
    (hf : f ∈ before) : st.dag.target f ≠ st.dag.target e := by
  intro htarget
  have inv := turn.ready.invariant
  obtain ⟨after, hposition⟩ := turn.position
  have hdone := turn.before_done f hf
  have hlinked := inv.done_linked f hdone
  have hsource : st.dag.source f = st.dag.source e :=
    ((inv.layout.mem_succEdges (st.dag.source e) f).mp
      (by simp [hposition, hf])).2
  have hne : f ≠ exitRoot := by
    rintro rfl
    rw [inv.layout.exitRoot_source] at hsource
    exact inv.layout.source_ne_exit turn.linked turn.ne hsource.symm
  rcases inv.coded f hdone hne with coded | unsplittable
  · rcases coded.noncritical with h | h
    · rw [hsource] at h
      exact absurd hsucc (Nat.not_lt.mpr h)
    · rw [htarget] at h
      exact absurd hpred (Nat.not_lt.mpr h)
  · unfold Unsplittable at unsplittable
    rw [hsource, htarget] at unsplittable
    exact hunsplittable unsplittable

theorem splitSite (hsucc : 1 < st.dag.getNumberSuccEdges (st.dag.source e))
    (hpred : 1 < st.dag.getNumberPredEdges (st.dag.target e))
    (hunsplittable : ¬ Unsplittable st.dag st.func e) :
    ∃ source target,
      SplitSite G st.dag st.func exitRoot e source before.length target ∧
      (st.func.successors source).idxOf target = before.length := by
  have inv := turn.ready.invariant
  obtain ⟨after, hposition⟩ := turn.position
  obtain ⟨source, _, hsource⟩ := inv.layout.block_source turn.linked turn.ne
  have hexit := inv.layout.target_ne_exit hsucc
    ((inv.layout.mem_succEdges _ e).mpr ⟨turn.linked, rfl⟩)
  obtain ⟨target, _, htarget⟩ := inv.layout.block_target turn.linked hexit
  refine ⟨source, target, ⟨inv, turn.linked, turn.ne, turn.undone, hsource,
    htarget, hsucc, hpred, ?_⟩, ?_⟩
  · rw [hposition]
    simp
  · exact inv.layout.idxOf_successors turn.linked hsource htarget hsucc hposition
      fun f hf => turn.target_ne_before hsucc hpred hunsplittable hf

theorem one_le_predEdges :
    1 ≤ st.dag.getNumberPredEdges (st.dag.target e) :=
  List.length_pos_of_mem ((turn.ready.invariant.layout.mem_predEdges _ e).mpr
    ⟨turn.linked, rfl⟩)

/-- `instrument` does not fail and keeps what the recursion knows. -/
theorem instrument (splitter : SplitCriticalEdge) :
    ∃ st' G' reached, st.instrument splitter e = .ok (st', reached) ∧
      Instrumented D₀ F₀ exitRoot G st e G' st' reached := by
  have prepared := turn.prepared_marked
  have site := prepared.site
  have layout := site.invariant.layout
  let D := st.dag.withFlags (Function.update st.dag.flags e true)
  rw [Emission.instrument, Dag.setHasInstrumentation_eq]
  by_cases hnoncritical : st.dag.getNumberSuccEdges (st.dag.source e) ≤ 1 ∨
      st.dag.getNumberPredEdges (st.dag.target e) = 1
  · have hsplit : Emission.splitCritical splitter ⟨D, st.func⟩ e =
        some ⟨D, st.func⟩ := splitCritical_of_noncritical splitter hnoncritical
    obtain ⟨st', G', reached, hinstrument, instrumented⟩ :=
      prepared.instrumentNode hnoncritical
    refine ⟨st', G', reached, ?_, instrumented⟩
    simp only [D] at hsplit
    simp only [hsplit]
    exact hinstrument
  rw [not_or] at hnoncritical
  have hsucc := Nat.not_le.mp hnoncritical.1
  have hpred := Nat.lt_of_le_of_ne turn.one_le_predEdges (Ne.symm hnoncritical.2)
  by_cases hunsplittable : Unsplittable st.dag st.func e
  · refine ⟨⟨D, st.func⟩, { G with done := fun f => G.done f ∨ f = e }, none, ?_,
      { ready := ⟨prepared.layout, site.giveUp hunsplittable, prepared.origin,
          prepared.flags⟩
        progress := { prepared.progress with done := fun _ h => .inl h }
        pending := prepared.pending
        done := fun _ => Iff.rfl
        arrived := fun _ => by simp
        new_arrived := fun _ hle hlt => absurd hlt (Nat.not_lt.mpr hle)
        split := fun hlt => absurd hlt (Nat.lt_irrefl _) }⟩
    have hnode : Emission.instrumentNode ⟨D, st.func⟩ e =
        .ok (⟨D, st.func⟩, none) :=
      (if_neg fun h => hnoncritical.1 h.2).trans (if_neg hnoncritical.2)
    simp only [D] at hnode
    rcases splitCritical_of_unsplittable splitter layout turn.linked
      hunsplittable with hsplit | hsplit
    · simp only [hsplit]
      rfl
    · simp only [hsplit]
      exact hnode
  · obtain ⟨source, target, splitSite, hindex⟩ :=
      turn.splitSite hsucc hpred hunsplittable
    have splitSite' : SplitSite G D st.func exitRoot e source before.length
        target := { splitSite with invariant := site.invariant }
    have hsplit := splitCritical_of_site splitter splitSite' hindex hunsplittable
    have hpending : D.pending + 1 < st.dag.pending := by
      have := Dag.pending_withFlags turn.linked.1
      rw [turn.pendingAt_eq, if_pos hsucc] at this
      simp only [D]
      omega
    have prepared' := prepared.split splitSite' rfl hpending
    obtain ⟨st', G', reached, hinstrument, instrumented⟩ :=
      prepared'.instrumentNode (.inr splitSite'.predEdges_former)
    refine ⟨st', G', reached, ?_, instrumented⟩
    simp only [D] at hsplit
    simp only [hsplit]
    exact hinstrument

end Turn

end RrWorkbench.PathLogging
