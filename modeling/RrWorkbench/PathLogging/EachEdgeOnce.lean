import RrWorkbench.PathLogging.RunOnFunction

namespace RrWorkbench.PathLogging

/-! The recursion of the emission as a whole: where every critical edge can be split,
it passes every edge of the final graph, each once, and leaves no critical edge. -/

namespace Emitted

variable {D₀ : Dag} {F₀ : LlvmFunction} {exitRoot e : EdgeId} {G : Ghost}
  {st : Emission} (emitted : Emitted D₀ F₀ exitRoot G st)
  (hsplit : ∀ source target, target ∈ F₀.successors source →
    F₀.Instrumentable source target)

include emitted hsplit

/-- An edge that is done has its instructions: it was noncritical or could be split. -/
theorem coded (hdone : G.done e) (hne : e ≠ exitRoot) : Coded G st.dag st.func e := by
  have origin := emitted.ready.origin
  have layout₀ := emitted.ready.layout
  have layout := emitted.ready.invariant.layout
  have hlinked := emitted.ready.invariant.done_linked e hdone
  refine (emitted.ready.invariant.coded e hdone hne).resolve_right fun unsplittable => ?_
  have hsource : st.dag.source e < D₀.numNodes := by
    refine Nat.lt_of_not_le fun hle => ?_
    exact absurd unsplittable.1
      (Nat.not_lt.mpr (origin.new_succ _ hle (layout.source_lt e hlinked)))
  have hmem : e ∈ st.dag.succEdges (st.dag.source e) :=
    (layout.mem_succEdges _ e).mpr ⟨hlinked, rfl⟩
  rw [origin.succEdges _ hsource] at hmem
  have hlinked₀ := ((layout₀.mem_succEdges _ e).mp hmem).1
  have hexit : D₀.target e ≠ D₀.exit := by
    intro hexit
    have halone := layout₀.exit_alone e hlinked₀ hexit
    have hsucc := unsplittable.1
    rw [origin.source e hlinked₀, Dag.getNumberSuccEdges,
      origin.succEdges _ (layout₀.source_lt e hlinked₀), halone] at hsucc
    exact absurd hsucc (Nat.lt_irrefl _)
  obtain ⟨source, _, hbs⟩ := layout₀.block_source hlinked₀ hne
  obtain ⟨target, _, hbt⟩ := layout₀.block_target hlinked₀ hexit
  have hsuccessor : target ∈ F₀.successors source :=
    List.count_pos_iff.mp (layout₀.count_successors_pos hlinked₀ hbs hbt)
  exact emitted.not_unsplittable hlinked₀ hne hbs hbt
    (hsplit source target hsuccessor) unsplittable

theorem arrived_target (hlinked : D₀.Linked e) (hne : e ≠ exitRoot)
    (harrived : G.arrived (D₀.source e)) : G.arrived (D₀.target e) := by
  have origin := emitted.ready.origin
  have layout₀ := emitted.ready.layout
  have hmem : e ∈ st.dag.succEdges (D₀.source e) := by
    rw [origin.succEdges _ (layout₀.source_lt e hlinked)]
    exact (layout₀.mem_succEdges _ e).mpr ⟨hlinked, rfl⟩
  have harrived' := (emitted.coded hsplit (emitted.closed _ harrived e hmem) hne).target_arrived
  rcases origin.edge e hlinked hne with kept | ⟨_, node, new, hnode, hle, hsucc, htarget, _⟩
  · rw [kept.1] at harrived'
    exact harrived'
  · rw [hnode] at harrived'
    rw [← htarget]
    exact (emitted.coded_new hle hsucc harrived').target_arrived

theorem arrived_of_path {x y : NodeId} {path : List EdgeId}
    (hpath : D₀.Path (fun f => D₀.Linked f ∧ f ≠ exitRoot) x path y)
    (harrived : G.arrived x) : G.arrived y := by
  induction hpath with
  | nil x => exact harrived
  | cons head _ ih => exact ih (emitted.arrived_target hsplit head.1 head.2 harrived)

/-- A done edge that leaves a block is not critical, or not any more. -/
theorem noncritical (hdone : G.done e) (hsource : st.dag.getBlock (st.dag.source e) ≠ none) :
    st.dag.getNumberSuccEdges (st.dag.source e) ≤ 1 ∨
      st.dag.getNumberPredEdges (st.dag.target e) = 1 := by
  have layout := emitted.ready.invariant.layout
  have hne : e ≠ exitRoot := by
    rintro rfl
    rw [layout.exitRoot_source] at hsource
    exact hsource layout.block_exit
  have hpositive : 0 < st.dag.getNumberPredEdges (st.dag.target e) :=
    List.length_pos_of_mem ((layout.mem_predEdges _ e).mpr
      ⟨emitted.ready.invariant.done_linked e hdone, rfl⟩)
  cases (emitted.coded hsplit hdone hne).noncritical with
  | inl hsucc => exact .inl hsucc
  | inr hpred => exact .inr (Nat.le_antisymm hpred hpositive)

omit hsplit in
theorem done_iff
    (harrived : ∀ x < st.dag.numNodes, x ≠ st.dag.exit → G.arrived x) (f : EdgeId) :
    G.done f ↔ ∃ x < st.dag.numNodes, f ∈ st.dag.succEdges x := by
  have layout := emitted.ready.invariant.layout
  constructor
  · intro hf
    have hlinked := emitted.ready.invariant.done_linked f hf
    exact ⟨_, layout.source_lt f hlinked, (layout.mem_succEdges _ f).mpr ⟨hlinked, rfl⟩⟩
  · rintro ⟨x, hx, hf⟩
    by_cases hexit : x = st.dag.exit
    · -- only the edge to root leaves exit, and the emission starts with it
      obtain ⟨hlinked, hsource⟩ := (layout.mem_succEdges x f).mp hf
      rw [layout.of_source f hlinked (hsource.trans hexit)]
      exact emitted.ready.invariant.exitRoot_done
    · exact emitted.closed x (harrived x hx hexit) f hf

end Emitted

namespace Dag.Numbered

variable {D : Dag} {F : LlvmFunction} (numbered : D.Numbered F)

include numbered

theorem arrived {exitRoot : EdgeId} {color : NodeId → NodeColor}
    {init counter : Data.Marks EdgeId Int} {G : Ghost} {st : Emission} {calls : List Call}
    (hexitRoot : (D.withChordWeights color).IsExitRootEdge exitRoot)
    (emitted : Emitted ((D.withChordWeights color).withMarks init counter).unlinked F
      exitRoot G st)
    (hsplit : ∀ source target, target ∈ F.successors source →
      F.Instrumentable source target)
    (made : CallsMade ((D.withChordWeights color).withMarks init counter).unlinked
      (Ghost.start (live (D.withChordWeights color)
          ((D.withChordWeights color).withMarks init counter))
        ((D.withChordWeights color).withMarks init counter).unlinked exitRoot)
      ⟨((D.withChordWeights color).withMarks init counter).unlinked, F⟩ G st calls)
    {x : NodeId} (hx : x < st.dag.numNodes) (hexit : x ≠ st.dag.exit) : G.arrived x := by
  rcases Nat.lt_or_ge x D.numNodes with hlt | hge
  · obtain ⟨path, hpath⟩ := numbered.shape.from_root x hlt
      (emitted.ready.origin.exit ▸ hexit)
    have hlinked : D.Path (fun f => D.Linked f ∧ f ≠ exitRoot) D.root path x := by
      refine hpath.mono fun f hf => ⟨⟨hf.1, hf.2.1⟩, ?_⟩
      rintro rfl
      exact hf.2.2 hexitRoot.source
    refine emitted.arrived_of_path hsplit hlinked ?_
    exact emitted.ready.origin.root ▸ emitted.ready.invariant.root_arrived
  · exact made.new_arrived x hge hx

end Dag.Numbered

/-- The recursion from the edge from exit to root ends.  It passes every linked edge of
the final graph once, splits only edges of the first graph, and no edge between two
blocks stays critical. -/
theorem insertInstrumentation_visits_each_edge_once {D : Dag} {F : LlvmFunction}
    (numbered : D.Numbered F) (hF : F.Uninstrumented)
    (hsplit : ∀ source target, target ∈ F.successors source →
      F.Instrumentable source target)
    (splitter : SplitCriticalEdge) :
    ∃ bound, ∀ fuel, bound ≤ fuel → ∃ D₁ D₂ D₃ D₄ exitRoot st calls,
      D.calculateSpanningTree fuel = some D₁ ∧
      D₁.calculateChordIncrements fuel = some D₂ ∧
      D₂.pushInitialization fuel = some D₃ ∧
      D₃.pushCounters fuel = some D₄ ∧
      D₄.unlinkPhony.getExitRootEdge = some exitRoot ∧
      Emission.insertInstrumentationStartingAt splitter fuel ⟨D₄.unlinkPhony, F⟩ exitRoot =
        .ok st ∧
      Emission.insertInstrumentationCalls splitter fuel ⟨D₄.unlinkPhony, F⟩ exitRoot =
        .ok (st, calls) ∧
      (calls.map Call.edge).Nodup ∧
      (∀ f, f ∈ calls.map Call.edge ↔ ∃ x < st.dag.numNodes, f ∈ st.dag.succEdges x) ∧
      (∀ call ∈ calls, call.split = true → call.edge < D.numEdges) ∧
      ∀ x < st.dag.numNodes, ∀ f ∈ st.dag.succEdges x,
        st.dag.getBlock (st.dag.source f) ≠ none →
        st.dag.getBlock (st.dag.target f) ≠ none →
        st.dag.getNumberSuccEdges (st.dag.source f) ≤ 1 ∨
          st.dag.getNumberPredEdges (st.dag.target f) = 1 := by
  obtain ⟨bound, exitRoot, color, hpasses⟩ := numbered.exists_passes hF
  have shape := numbered.shape_withChordWeights color
  refine ⟨bound, fun fuel hfuel => ?_⟩
  obtain ⟨D₁, init, counter, htree, hchords, hinit, hcounter, pushed, start, hpending⟩ :=
    hpasses fuel hfuel
  obtain ⟨st, G, calls, hcalls, ready, made, closed⟩ := start.insertInstrumentationCalls
    (numbered.not_hasInstrumentation color init counter) splitter hpending
  have emitted : Emitted _ F exitRoot G st := ⟨ready, closed⟩
  have hdone := emitted.done_iff fun x hx hexit =>
    numbered.arrived pushed.exitRoot emitted hsplit made hx hexit
  have hstart : ∀ f, G.done f ↔ f = exitRoot ∨ f ∈ calls.map Call.edge := made.done
  have hunlink : ((D.withChordWeights color).withMarks init counter).unlinkPhony =
      ((D.withChordWeights color).withMarks init counter).unlinked :=
    shape.withMarks.links.unlinkPhony_eq
  refine ⟨D₁, _, _, _, exitRoot, st, ⟨exitRoot, false⟩ :: calls, htree, hchords, hinit,
    hcounter, ?_, ?_, ?_, ?_, ?_, ?_, ?_⟩
  · rw [hunlink]
    exact start.getExitRootEdge
  · rw [hunlink, ← Emission.map_fst_insertInstrumentationCalls, hcalls]
    rfl
  · rw [hunlink]
    exact hcalls
  · rw [List.map_cons, List.nodup_cons]
    exact ⟨fun hmem => made.undone exitRoot hmem rfl, made.nodup⟩
  · intro f
    rw [List.map_cons, List.mem_cons, ← hstart f]
    exact hdone f
  · intro call hcall hcallSplit
    rw [List.mem_cons] at hcall
    cases hcall with
    | inl hfirst =>
        subst hfirst
        cases hcallSplit
    | inr hrest => exact (made.split call hrest hcallSplit).1
  · intro x hx f hf hsource _
    exact emitted.noncritical hsplit ((hdone f).mpr ⟨x, hx, hf⟩) hsource

/-! A function that never returns: a block that is its own successor and a second loop
around it.  The first back edge is critical. -/

def foreverFunction : LlvmFunction :=
  .ofBlocks
    [ { terminator := .br, successors := [1] },
      { terminator := .br, successors := [1, 2] },
      { terminator := .br, successors := [1] } ]

def forever : Dag :=
  Dag.ofEdges [some 0, none, some 1, some 2]
    [ { source := 0, target := 2 },
      { source := 2, target := 2, type := .backedge,
        phonyRoot := some 2, phonyExit := some 3 },
      { source := 0, target := 2, type := .backedgePhony, weight := 2 },
      { source := 2, target := 1, type := .backedgePhony },
      { source := 2, target := 3, weight := 1 },
      { source := 3, target := 2, type := .backedge,
        phonyRoot := some 6, phonyExit := some 7 },
      { source := 0, target := 2, type := .backedgePhony, weight := 4 },
      { source := 3, target := 1, type := .backedgePhony },
      { source := 1, target := 0 } ]
    0 1 6

theorem forever_ballLarus : forever.BallLarus where
  root_lt := by decide
  exit_lt := by decide
  root_ne_exit := by decide
  source_lt := by decide
  target_lt := by decide
  mem_succEdges := Dag.mem_succEdges_ofEdges
  mem_predEdges := Dag.mem_predEdges_ofEdges
  nodup_succEdges := Dag.nodup_succEdges_ofEdges
  nodup_predEdges := Dag.nodup_predEdges_ofEdges
  exitRoot := ⟨8, by decide⟩
  cut_target := by decide
  phonyRoot := by
    intro e he hcut
    refine ⟨e + 1, ?_⟩
    revert e
    decide
  phonyExit := by
    intro e he hcut
    refine ⟨e + 2, ?_⟩
    revert e
    decide
  phony_target := by
    intro r hr hphony hexit
    refine ⟨r - 1, ?_⟩
    revert r
    decide
  no_callPhony := by decide
  acyclic := ⟨fun x => [3, 0, 2, 1].getD x 0, by
    rintro e ⟨he, hcut, hexit⟩
    revert e
    decide⟩
  from_root := by
    intro x hx hexit
    refine ⟨[[], [], [0], [0, 4]].getD x [], ?_⟩
    revert x
    decide
  to_exit := by
    intro x hx
    refine ⟨[[0, 3], [], [3], [7]].getD x [], ?_⟩
    revert x
    decide
  backedge_loop := by
    intro e he hback
    refine ⟨[[], [], [], [], [], [4]].getD e [], ?_⟩
    revert e
    decide
  numberOfPaths_pos := by decide

theorem forever_numbered : forever.Numbered foreverFunction where
  shape := forever_ballLarus
  represents := forever_ballLarus.represents (by decide) (by decide)
    (by decide) (by decide) (by decide) (by decide)
  cut_weight := by decide
  exitRoot_weight := by decide
  untouched := ⟨rfl, rfl, by decide⟩
  unmarked := ⟨by decide, by decide⟩
  increment := by decide
  hasInstrumentation := by decide
  numbers := by decide

theorem foreverFunction_uninstrumented : foreverFunction.Uninstrumented := by
  unfold LlvmFunction.Uninstrumented
  decide

theorem foreverFunction_instrumentable (source target : BlockId) :
    foreverFunction.Instrumentable source target :=
  LlvmFunction.ofBlocks_instrumentable (by decide) source target

theorem insertInstrumentation_visits_each_edge_once_forever :
    ∃ bound, ∀ fuel, bound ≤ fuel → ∃ D₄ exitRoot st calls,
      Emission.insertInstrumentationCalls splitCriticalEdge fuel
        ⟨Dag.unlinkPhony D₄, foreverFunction⟩ exitRoot = .ok (st, calls) ∧
      (calls.map Call.edge).Nodup ∧
      (∀ f, f ∈ calls.map Call.edge ↔ ∃ x < st.dag.numNodes, f ∈ st.dag.succEdges x) ∧
      ∀ call ∈ calls, call.split = true → call.edge < 9 := by
  obtain ⟨bound, hbound⟩ := insertInstrumentation_visits_each_edge_once forever_numbered
    foreverFunction_uninstrumented
    (fun source target _ => foreverFunction_instrumentable source target) splitCriticalEdge
  refine ⟨bound, fun fuel hfuel => ?_⟩
  obtain ⟨_, _, _, D₄, exitRoot, st, calls, _, _, _, _, _, _, hcalls, hnodup, hmem, hsplit, _⟩ :=
    hbound fuel hfuel
  exact ⟨D₄, exitRoot, st, calls, hcalls, hnodup, hmem, hsplit⟩

end RrWorkbench.PathLogging
