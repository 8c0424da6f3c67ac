import RrWorkbench.PathLogging.Calls
import RrWorkbench.PathLogging.EmissionInstrument

namespace RrWorkbench.PathLogging

/-! The recursion of `insertInstrumentationStartingAt` comes to an end, and then
every edge out of every node it has reached is done. -/

structure Explored (G : Ghost) (st : Emission) (G' : Ghost) (st' : Emission) :
    Prop where
  progress : Progress G st G' st'
  closed : ∀ x, G'.arrived x → ¬ G.arrived x → ∀ f ∈ st'.dag.succEdges x, G'.done f

/-- The calls in between are on the edges that have become done, each once. -/
structure CallsMade (D₀ : Dag) (G : Ghost) (st : Emission) (G' : Ghost)
    (st' : Emission) (calls : List Call) : Prop where
  nodup : (calls.map Call.edge).Nodup
  done : ∀ f, G'.done f ↔ G.done f ∨ f ∈ calls.map Call.edge
  undone : ∀ f ∈ calls.map Call.edge, ¬ G.done f
  split : ∀ call ∈ calls, call.split = true → D₀.Linked call.edge
  new_arrived : ∀ x, st.dag.numNodes ≤ x → x < st'.dag.numNodes → G'.arrived x

section Recursion

variable {D₀ : Dag} {F₀ : LlvmFunction} {exitRoot e : EdgeId} {G G' G'' : Ghost}
  {st st' st'' : Emission} (splitter : SplitCriticalEdge)

theorem CallsMade.refl (D₀ : Dag) (G : Ghost) (st : Emission) :
    CallsMade D₀ G st G st [] where
  nodup := List.nodup_nil
  done f := by simp
  undone f hf := by simp at hf
  split call hcall := by simp at hcall
  new_arrived x hle hlt := absurd hlt (Nat.not_lt.mpr hle)

theorem CallsMade.trans {calls calls' : List Call}
    (first : CallsMade D₀ G st G' st' calls)
    (second : CallsMade D₀ G' st' G'' st'' calls')
    (harrived : ∀ x, G'.arrived x → G''.arrived x) :
    CallsMade D₀ G st G'' st'' (calls ++ calls') where
  nodup := by
    rw [List.map_append, List.nodup_append]
    refine ⟨first.nodup, second.nodup, ?_⟩
    rintro f hf g hg rfl
    exact second.undone f hg ((first.done f).mpr (.inr hf))
  done f := by
    rw [second.done, first.done, List.map_append, List.mem_append, or_assoc]
  undone f hf := by
    rw [List.map_append, List.mem_append] at hf
    cases hf with
    | inl hfirst => exact first.undone f hfirst
    | inr hsecond => exact fun hdone => second.undone f hsecond ((first.done f).mpr (.inl hdone))
  split call hcall := by
    cases List.mem_append.mp hcall with
    | inl hfirst => exact first.split call hfirst
    | inr hsecond => exact second.split call hsecond
  new_arrived x hle hlt := by
    rcases Nat.lt_or_ge x st'.dag.numNodes with hlt' | hle'
    · exact harrived x (first.new_arrived x hle hlt')
    · exact second.new_arrived x hle' hlt

theorem Instrumented.callsMade {reached : Option NodeId}
    (instrumented : Instrumented D₀ F₀ exitRoot G st e G' st' reached)
    (hundone : ¬ G.done e) :
    CallsMade D₀ G st G' st' [⟨e, decide (st.dag.numEdges < st'.dag.numEdges)⟩] where
  nodup := List.nodup_singleton e
  done f := by simp [instrumented.done f]
  undone f hf := by
    rw [List.map_singleton, List.mem_singleton] at hf
    exact hf ▸ hundone
  split call hcall hsplit := by
    rw [List.mem_singleton] at hcall
    subst hcall
    exact instrumented.split (of_decide_eq_true hsplit)
  new_arrived := instrumented.new_arrived

theorem Explored.refl (G : Ghost) (st : Emission) : Explored G st G st :=
  ⟨Progress.refl G st, fun _ hx hnot => absurd hx hnot⟩

theorem Explored.trans (ready : Ready D₀ F₀ exitRoot G' st')
    (first : Explored G st G' st') (second : Explored G' st' G'' st'') :
    Explored G st G'' st'' := by
  refine ⟨first.progress.trans second.progress, ?_⟩
  intro x hx hnot f hf
  by_cases hmiddle : G'.arrived x
  · rw [second.progress.succEdges x (ready.invariant.arrived_lt x hmiddle)] at hf
    exact second.progress.done f (first.closed x hmiddle hnot f hf)
  · exact second.closed x hx hmiddle f hf

def RecursionOk (D₀ : Dag) (F₀ : LlvmFunction) (exitRoot : EdgeId) (fuel : Nat) :
    Prop :=
  ∀ G st e before, Turn D₀ F₀ exitRoot G st e before → st.dag.pending ≤ fuel →
    ∃ st' G' calls,
      Emission.insertInstrumentationCalls splitter fuel st e = .ok (st', calls) ∧
      Ready D₀ F₀ exitRoot G' st' ∧ Explored G st G' st' ∧
      CallsMade D₀ G st G' st' calls ∧ G'.done e

def callSuccessor (fuel : Nat) (made : Emission × List Call) (next : EdgeId) :
    Except EmitError (Emission × List Call) :=
  if (made.1.dag.edge next).hasInstrumentation then .ok made
  else do
    let (st, calls) ← Emission.insertInstrumentationCalls splitter fuel made.1 next
    .ok (st, made.2 ++ calls)

/-- The loop over the edges out of a node, from where `before` has been dealt with. -/
theorem foldlM_explored {fuel : Nat}
    (recursion : RecursionOk splitter D₀ F₀ exitRoot fuel) {x : NodeId} :
    ∀ (rest before : List EdgeId) (made : List Call) {G : Ghost} {st : Emission},
      Ready D₀ F₀ exitRoot G st → G.arrived x →
      st.dag.succEdges x = before ++ rest → (∀ f ∈ before, G.done f) →
      st.dag.pending ≤ fuel →
      ∃ st' G' calls,
        rest.foldlM (callSuccessor splitter fuel) (st, made) = .ok (st', made ++ calls) ∧
        Ready D₀ F₀ exitRoot G' st' ∧ Explored G st G' st' ∧
        CallsMade D₀ G st G' st' calls ∧ ∀ f ∈ rest, G'.done f
  | [], _, made, G, st, ready, _, _, _, _ =>
      ⟨st, G, [], by rw [List.append_nil]; rfl, ready, Explored.refl G st,
        CallsMade.refl D₀ G st, by simp⟩
  | next :: rest, before, made, G, st, ready, harrived, hsplit, hbefore, hpending => by
      have layout := ready.invariant.layout
      obtain ⟨hlinked, hsource⟩ :=
        (layout.mem_succEdges x next).mp (by simp [hsplit])
      -- the state after `next` has been dealt with
      have hnext : ∃ st' G' calls,
          callSuccessor splitter fuel (st, made) next = .ok (st', made ++ calls) ∧
          Ready D₀ F₀ exitRoot G' st' ∧ Explored G st G' st' ∧
          CallsMade D₀ G st G' st' calls ∧ G'.done next := by
        by_cases hflag : (st.dag.edge next).hasInstrumentation = true
        · refine ⟨st, G, [], ?_, ready, Explored.refl G st, CallsMade.refl D₀ G st,
            (ready.flags next hlinked).mp hflag⟩
          rw [callSuccessor, if_pos hflag, List.append_nil]
        · have hundone : ¬ G.done next := fun h =>
            hflag ((ready.flags next hlinked).mpr h)
          have hne : next ≠ exitRoot := by
            rintro rfl
            exact hundone ready.invariant.exitRoot_done
          obtain ⟨st', G', calls, hrun, ready', explored, hcalls, hdone⟩ :=
            recursion G st next before
              ⟨ready, hlinked, hne, hundone, hsource ▸ harrived,
                ⟨rest, hsource ▸ hsplit⟩, hbefore⟩ hpending
          refine ⟨st', G', calls, ?_, ready', explored, hcalls, hdone⟩
          rw [callSuccessor, if_neg hflag, hrun]
          rfl
      obtain ⟨st', G', calls, hrun, ready', explored, hcalls, hdone⟩ := hnext
      have progress := explored.progress
      obtain ⟨st'', G'', calls', hrun', ready'', explored', hcalls', hdone'⟩ :=
        foldlM_explored recursion rest (before ++ [next]) (made ++ calls) ready'
          (progress.arrived x harrived)
          (by
            rw [progress.succEdges x (ready.invariant.arrived_lt x harrived), hsplit]
            simp)
          (by
            intro f hf
            rcases List.mem_append.mp hf with hf | hf
            · exact progress.done f (hbefore f hf)
            · rw [List.mem_singleton.mp hf]
              exact hdone)
          (Nat.le_trans progress.pending hpending)
      refine ⟨st'', G'', calls ++ calls', ?_, ready'', explored.trans ready' explored',
        hcalls.trans hcalls' explored'.progress.arrived, ?_⟩
      · rw [List.foldlM_cons, hrun, ← List.append_assoc]
        exact hrun'
      · intro f hf
        rcases List.mem_cons.mp hf with rfl | hf
        · exact explored'.progress.done f hdone
        · exact hdone' f hf

theorem recursionOk (fuel : Nat) : RecursionOk splitter D₀ F₀ exitRoot fuel := by
  induction fuel with
  | zero =>
      intro G st e before turn hpending
      have hpos := turn.pendingAt_pos
      have := Dag.pending_withFlags turn.linked.1
      omega
  | succ fuel ih =>
      intro G st e before turn hpending
      obtain ⟨st₁, G₁, reached, hinstrument, instrumented⟩ :=
        turn.instrument splitter
      have ready := instrumented.ready
      have hdone : G₁.done e := (instrumented.done e).mpr (.inr rfl)
      cases reached with
      | none =>
          refine ⟨st₁, G₁, _, ?_, ready, ⟨instrumented.progress, ?_⟩,
            instrumented.callsMade turn.undone, hdone⟩
          · rw [Emission.insertInstrumentationCalls, hinstrument]
            rfl
          · intro x hx hnot
            exact absurd (((instrumented.arrived x).mp hx).resolve_right (by simp))
              hnot
      | some target =>
          have harrived : G₁.arrived target :=
            (instrumented.arrived target).mpr (.inr rfl)
          have hpending₁ : st₁.dag.pending ≤ fuel :=
            Nat.le_of_lt_succ (Nat.lt_of_lt_of_le instrumented.pending hpending)
          obtain ⟨st', G', calls, hrun, ready', explored, hcalls, hrest⟩ :=
            foldlM_explored splitter ih _ []
              [⟨e, decide (st.dag.numEdges < st₁.dag.numEdges)⟩] ready harrived rfl
              (by simp) hpending₁
          refine ⟨st', G', _, ?_, ready',
            ⟨instrumented.progress.trans explored.progress, ?_⟩,
            (instrumented.callsMade turn.undone).trans hcalls explored.progress.arrived,
            explored.progress.done e hdone⟩
          · rw [Emission.insertInstrumentationCalls, hinstrument]
            exact hrun
          · intro x hx hnot f hf
            by_cases hx₁ : G₁.arrived x
            · have heq : target = x := by
                simpa using ((instrumented.arrived x).mp hx₁).resolve_left hnot
              subst heq
              rw [explored.progress.succEdges target
                (ready.invariant.arrived_lt target hx₁)] at hf
              exact hrest f hf
            · exact explored.closed x hx hx₁ f hf

end Recursion

structure Start (live : NodeId → Bool) (D : Dag) (F : LlvmFunction)
    (exitRoot : EdgeId) : Prop where
  layout : Layout D F exitRoot
  paths : 0 < D.numberOfPaths
  marks : ∀ e, D.Linked e → e ≠ exitRoot → EdgeMarks live D e
  root_dead : live D.root = false
  exit_dead : live D.exit = false
  numbers : ∀ x, x < D.numNodes → D.startingPathNumber x = none ∧
    D.endingPathNumber x = none ∧ (D.node x).pathPHI = none
  blocks : ∀ b, b < F.numBlocks → (F.block b).pathPHI = none ∧
    (F.block b).front = [] ∧ (F.block b).back = []
  exitRoot_plain : D.IsPlain exitRoot
  no_callPhony : ∀ e, e < D.numEdges → D.type e ≠ .calledgePhony

def Ghost.start (live : NodeId → Bool) (D : Dag) (exitRoot : EdgeId) : Ghost where
  live := live
  arrived x := x = D.root
  done e := e = exitRoot
  holder _ := none
  inBack _ := []
  outBack _ := []

namespace Start

variable {live : NodeId → Bool} {D : Dag} {F : LlvmFunction} {exitRoot : EdgeId}
  (start : Start live D F exitRoot)

include start

theorem invariant :
    EmissionInvariant (Ghost.start live D exitRoot) D F exitRoot := by
  have layout := start.layout
  have hblock : ∀ x b, x < D.numNodes → D.getBlock x = some b →
      (F.block b).pathPHI = none ∧ (F.block b).front = [] ∧
        (F.block b).back = [] := fun x b hx hb =>
    start.blocks b (layout.block_lt hx hb)
  refine
    { layout := layout
      phis := ?_
      paths := start.paths
      marks := start.marks
      root_arrived := rfl
      root_dead := start.root_dead
      exit_dead := start.exit_dead
      root_code := ?_
      arrived_lt := ?_
      arrived_over := fun x hx hroot => absurd hx hroot
      exitRoot_done := rfl
      done_linked := ?_
      fresh := ?_
      back := fun x b hx hb => (hblock x b hx hb).2.2
      outBack_undone := fun _ _ _ => rfl
      outBack_branch := fun _ _ => rfl
      pathNumbers := ?_
      holder_live := ?_
      join := ?_
      single := fun x b hx hb _ => (hblock x b hx hb).1
      coded := fun e hdone hne => absurd hdone hne }
  · intro b hb entries hentries
    rw [(start.blocks b hb).1] at hentries
    contradiction
  · obtain ⟨b, hlt, hb⟩ := layout.block _ layout.root_lt layout.root_ne_exit
    rw [Ghost.inCode_eq hb, (start.blocks b hlt).2.1]
    rfl
  · rintro x rfl
    exact layout.root_lt
  · rintro e rfl
    exact layout.exitRoot_linked
  · intro x hx _
    obtain ⟨hstarting, hending, hphi⟩ := start.numbers x hx
    exact ⟨hstarting, hending, hphi, rfl, rfl, fun b hb =>
      ⟨(hblock x b hx hb).1, (hblock x b hx hb).2.1⟩⟩
  · intro e he _ harrived
    refine ⟨(start.numbers _ (layout.source_lt e he)).2.1, fun hlive => ?_⟩
    have hroot : D.source e = D.root := harrived
    rw [hroot] at hlive
    exact absurd (start.root_dead.symm.trans hlive) Bool.false_ne_true
  · rintro x rfl
    exact start.root_dead.symm
  · intro x b hx hb _
    refine ⟨(hblock x b hx hb).2.1, rfl, ?_, fun _ _ =>
      ⟨(hblock x b hx hb).1, (start.numbers x hx).2.2⟩⟩
    rintro rfl hlive
    exact absurd (start.root_dead.symm.trans hlive) Bool.false_ne_true

theorem predEdges_root : D.getNumberPredEdges D.root = 1 := by
  have layout := start.layout
  have hmem : exitRoot ∈ D.predEdges D.root :=
    (layout.mem_predEdges _ _).mpr
      ⟨layout.exitRoot_linked, layout.exitRoot_target⟩
  refine Nat.le_antisymm (Nat.not_lt.mp fun hlt => ?_) (List.length_pos_of_mem hmem)
  obtain ⟨f, hf, hne⟩ := exists_ne_of_one_lt_length
    (layout.nodup_predEdges D.root) hlt exitRoot
  obtain ⟨hlinked, htarget⟩ := (layout.mem_predEdges _ f).mp hf
  exact hne (layout.of_target f hlinked htarget)

theorem instrumentTarget_exitRoot :
    Emission.instrumentTarget ⟨D, F⟩ exitRoot D.exit D.root = .ok ⟨D, F⟩ := by
  have layout := start.layout
  obtain ⟨b, hlt, hb⟩ := layout.block _ layout.root_lt layout.root_ne_exit
  obtain ⟨hstarting, hending, _⟩ := start.numbers _ layout.root_lt
  obtain ⟨_, hexit, _⟩ := start.numbers _ layout.exit_lt
  have hroot : (⟨none, none, (D.numbers D.root).phi⟩ : Numbers) =
      D.numbers D.root := by
    simp only [Dag.numbers, Numbers.mk.injEq, and_true]
    exact ⟨hstarting.symm, hending.symm⟩
  have hnumbers : D.setPathNumbers D.root none none = D :=
    (D.setPathNumbers_eq D.root none none).trans
      (by rw [show (⟨none, none, (D.node D.root).pathPHI⟩ : Numbers) =
        D.numbers D.root from hroot, Function.update_eq_self, Dag.withNumbers_self])
  have hpush : Emission.pushValueIntoNode ⟨D, F⟩ D.exit D.root = .ok ⟨D, F⟩ := by
    simp only [Emission.pushValueIntoNode, hb, hstarting, hexit,
      start.predEdges_root, reduceCtorEq, if_false, if_true, Nat.le_refl, ne_eq,
      not_true_eq_false, hnumbers]
  have hcursor : Emission.instrumentCursor D exitRoot
      (Emission.cursorAt ⟨D, F⟩ D.root) true =
      .ok ⟨none, none, F.nextInst, [], []⟩ := by
    have plain := start.exitRoot_plain
    simp [Emission.instrumentCursor, plain.isCut, Cursor.instrumentNormalEdge,
      Cursor.updateNumber, plain.isInitialization, plain.increment,
      plain.isCounterIncrement, Emission.cursorAt, hstarting, hending]
  have hinsert : Emission.insertAt ⟨D, F⟩ D.root b true
      ⟨none, none, F.nextInst, [], []⟩ = ⟨D, F⟩ := by
    have hcode : (⟨(F.block b).pathPHI, [] ++ (F.block b).front,
        (F.block b).back ++ []⟩ : Code) = F.code b := by
      simp [LlvmFunction.code]
    have hinsert := insertAt_beginning D F D.numbers D.root b
      ⟨none, none, F.nextInst, [], []⟩
    dsimp only at hinsert
    rw [Dag.withNumbers_self, hroot, hcode, Function.update_eq_self,
      Function.update_eq_self, Dag.withNumbers_self, LlvmFunction.withCode_self]
      at hinsert
    exact hinsert
  rw [Emission.instrumentTarget, hpush, ok_bind,
    instrumentEdge_eq b _ hb hcursor, hinsert]

theorem withFlags (flags : EdgeId → Bool) :
    Start live (D.withFlags flags) F exitRoot :=
  { start with
    layout := { start.layout with }
    marks := fun e he hne => (start.marks e he hne).withFlags flags
    exitRoot_plain := { start.exitRoot_plain with } }

theorem instrument_exitRoot (splitter : SplitCriticalEdge) :
    Emission.instrument splitter ⟨D, F⟩ exitRoot =
      .ok (⟨D.withFlags (Function.update D.flags exitRoot true), F⟩,
        some D.root) := by
  let D' := D.withFlags (Function.update D.flags exitRoot true)
  have layout := start.layout
  have hexit : D'.getBlock (D'.source exitRoot) = none := by
    rw [show D'.source exitRoot = D.exit from layout.exitRoot_source]
    exact layout.block_exit
  have hsplit : Emission.splitCritical splitter ⟨D', F⟩ exitRoot = some ⟨D', F⟩ := by
    simp only [Emission.splitCritical, hexit]
  have hpred : D'.getNumberPredEdges (D'.target exitRoot) = 1 := by
    rw [show D'.target exitRoot = D.root from layout.exitRoot_target]
    exact start.predEdges_root
  have htarget : Emission.instrumentTarget ⟨D', F⟩ exitRoot (D'.source exitRoot)
      (D'.target exitRoot) = .ok ⟨D', F⟩ := by
    rw [show D'.source exitRoot = D'.exit from layout.exitRoot_source,
      show D'.target exitRoot = D'.root from layout.exitRoot_target]
    exact (start.withFlags _).instrumentTarget_exitRoot
  have hnode : Emission.instrumentNode ⟨D', F⟩ exitRoot =
      .ok (⟨D', F⟩, some D.root) := by
    rw [Emission.instrumentNode, if_neg (fun h => h.1 hexit), if_pos hpred, htarget,
      ok_bind, show D'.target exitRoot = D.root from layout.exitRoot_target]
  rw [Emission.instrument, Dag.setHasInstrumentation_eq]
  simp only [D'] at hsplit
  simp only [hsplit]
  exact hnode

theorem getExitRootEdge : D.getExitRootEdge = some exitRoot := by
  have layout := start.layout
  have hmem := (layout.mem_succEdges D.exit exitRoot).mpr
    ⟨layout.exitRoot_linked, layout.exitRoot_source⟩
  unfold Dag.getExitRootEdge
  cases hedges : D.succEdges D.exit with
  | nil => simp [hedges] at hmem
  | cons f rest =>
      obtain ⟨hf, hsource⟩ := (layout.mem_succEdges D.exit f).mp (by simp [hedges])
      rw [layout.of_source f hf hsource]
      rfl

/-- The recursion succeeds, and all edges out of the nodes it reaches are done, each
after one call. -/
theorem insertInstrumentationCalls
    (hflags : ∀ e, D.Linked e → (D.edge e).hasInstrumentation = false)
    (splitter : SplitCriticalEdge) {fuel : Nat} (hfuel : D.pending < fuel) :
    ∃ st' G' calls,
      Emission.insertInstrumentationCalls splitter fuel ⟨D, F⟩ exitRoot =
        .ok (st', ⟨exitRoot, false⟩ :: calls) ∧
      Ready D F exitRoot G' st' ∧
      CallsMade D (Ghost.start live D exitRoot) ⟨D, F⟩ G' st' calls ∧
      ∀ x, G'.arrived x → ∀ f ∈ st'.dag.succEdges x, G'.done f := by
  have layout := start.layout
  let D' := D.withFlags (Function.update D.flags exitRoot true)
  have ready : Ready D F exitRoot (Ghost.start live D exitRoot) ⟨D', F⟩ := by
    refine ⟨layout, start.invariant.withFlags _, (Origin.refl D F).withFlags _, ?_⟩
    intro e he
    change Function.update D.flags exitRoot true e = true ↔ e = exitRoot
    by_cases hexit : e = exitRoot
    · simp [hexit]
    · simp [Dag.flags, hflags e he, hexit]
  obtain ⟨fuel, rfl⟩ := Nat.exists_eq_add_one_of_ne_zero (Nat.ne_zero_of_lt hfuel)
  have hpending : D'.pending ≤ fuel := by
    have := Dag.pending_withFlags layout.exitRoot_linked.1
    simp only [D']
    omega
  obtain ⟨st', G', calls, hrun, ready', explored, hcalls, hrest⟩ :=
    foldlM_explored splitter (recursionOk splitter fuel) _ [] [⟨exitRoot, false⟩]
      (x := D.root) ready rfl rfl (by simp) hpending
  refine ⟨st', G', calls, ?_, ready', { hcalls with }, ?_⟩
  · have hcall : decide (D.numEdges < D'.numEdges) = false :=
      decide_eq_false (Nat.lt_irrefl D.numEdges)
    rw [Emission.insertInstrumentationCalls, start.instrument_exitRoot splitter, ok_bind]
    simp only [hcall, D'] at hrun ⊢
    exact hrun
  · intro x hx f hf
    by_cases hroot : x = D.root
    · subst hroot
      rw [explored.progress.succEdges D.root layout.root_lt] at hf
      exact hrest f hf
    · exact explored.closed x hx hroot f hf

theorem insertInstrumentation
    (hflags : ∀ e, D.Linked e → (D.edge e).hasInstrumentation = false)
    (splitter : SplitCriticalEdge) {fuel : Nat} (hfuel : D.pending < fuel) :
    ∃ st' G',
      Emission.insertInstrumentation splitter fuel ⟨D, F⟩ = .ok st' ∧
      Ready D F exitRoot G' st' ∧
      ∀ x, G'.arrived x → ∀ f ∈ st'.dag.succEdges x, G'.done f := by
  obtain ⟨st', G', calls, hcalls, ready, _, closed⟩ :=
    start.insertInstrumentationCalls hflags splitter hfuel
  refine ⟨st', G', ?_, ready, closed⟩
  have hrun : Emission.insertInstrumentationStartingAt splitter fuel ⟨D, F⟩ exitRoot =
      .ok st' := by
    rw [← Emission.map_fst_insertInstrumentationCalls, hcalls]
    rfl
  have hcall : st'.dag.getCallPhonyEdges = [] := by
    rw [Dag.getCallPhonyEdges, List.filter_eq_nil_iff]
    intro e he htype
    obtain ⟨hlt, htype₀⟩ := ready.origin.callPhony e (List.mem_range.mp he)
      (of_decide_eq_true htype)
    exact start.no_callPhony e hlt htype₀
  rw [Emission.insertInstrumentation, start.getExitRootEdge, orError_some, ok_bind, hrun,
    ok_bind, if_pos hcall]

end Start

end RrWorkbench.PathLogging
