import RrWorkbench.PathLogging.EachEdgeOnce
import RrWorkbench.PathLogging.Steps

namespace RrWorkbench.PathLogging

/-! The code on a back edge, put at the end of its source or, once the edge has been
split, into the new block, for increments that come from any spanning tree. -/

/-- What the code adds to the path number up to its first call. -/
def addedBeforeCall : List Inst → Option (BitVec 32)
  | [] => none
  | .add _ _ rhs :: rest => (addedBeforeCall rest).map (rhs + ·)
  | .incrementPathCount _ :: _ => some 0#32

theorem addedBeforeCall_append {code : List Inst} {amount : BitVec 32}
    (h : addedBeforeCall code = some amount) (rest : List Inst) :
    addedBeforeCall (code ++ rest) = some amount := by
  induction code generalizing amount with
  | nil => cases h
  | cons inst code ih =>
      cases inst with
      | add inst lhs rhs =>
          obtain ⟨later, hlater, rfl⟩ := Option.map_eq_some_iff.mp h
          rw [List.cons_append, addedBeforeCall, ih hlater, Option.map_some]
      | incrementPathCount path => exact h

def AddsOnly (code : List Inst) (amount : BitVec 32) : Prop :=
  ∀ rest, addedBeforeCall (code ++ rest) = (addedBeforeCall rest).map (amount + ·)

theorem addsOnly_nil : AddsOnly [] (createIncrementConstant 0) := by
  intro rest
  have hzero : ∀ amount, createIncrementConstant 0 + amount = amount := BitVec.zero_add
  simp [hzero]

theorem addsOnly_add {inst : Nat} {lhs : Value} {rhs : BitVec 32} :
    AddsOnly [.add inst lhs rhs] rhs := fun _ => rfl

namespace Cursor

variable {cursor result : Cursor} {numberOfPaths : Nat} {top bottom edge : Edge}

theorem exists_of_add {increment : Int} (h : cursor.add increment = .ok result) :
    ∃ value, result.late = cursor.late ∧ result.code = cursor.code ++
      [.add cursor.nextInst value (createIncrementConstant increment)] := by
  obtain ⟨value, _, h⟩ := exists_of_bind_ok h
  cases h
  exact ⟨value, rfl, rfl⟩

theorem exists_of_counterIncrement {call : Inst}
    (h : cursor.counterIncrement numberOfPaths = .ok call) :
    ∃ value, call = .incrementPathCount value := by
  unfold counterIncrement at h
  split at h
  · cases h
  · obtain ⟨value, _, h⟩ := exists_of_bind_ok h
    cases h
    exact ⟨value, rfl⟩

theorem addBottom_addsOnly (hcode : cursor.code = [])
    (h : cursor.addBottom bottom = .ok result) :
    AddsOnly result.code (createIncrementConstant bottom.increment) := by
  unfold addBottom at h
  split at h
  · obtain ⟨value, _, hadd⟩ := exists_of_add h
    rw [hadd, hcode]
    exact addsOnly_add
  · rename_i hzero
    cases h
    rw [not_not.mp hzero, hcode]
    exact addsOnly_nil

theorem initialized_code : cursor.initialized.code = cursor.code := by
  unfold initialized
  dsimp only
  split
  all_goals rfl

theorem instrumentCutEdge_added {atBeginning : Bool} (hcode : cursor.code = [])
    (h : cursor.instrumentCutEdge numberOfPaths top bottom atBeginning = .ok result) :
    addedBeforeCall result.code = some (createIncrementConstant bottom.increment) := by
  unfold instrumentCutEdge at h
  split at h
  · cases h
  · split at h
    · cases h
    · obtain ⟨ended, hended, h⟩ := exists_of_bind_ok h
      obtain ⟨added, hadded, hended⟩ := exists_of_bind_ok hended
      obtain ⟨call, hcall, hended⟩ := exists_of_bind_ok hended
      obtain ⟨value, rfl⟩ := exists_of_counterIncrement hcall
      have adds := addBottom_addsOnly (initialized_code.trans hcode) hadded
      have hresult : result.code = ended.code := by
        unfold beginPath at h
        dsimp only at h
        split at h
        · obtain ⟨last, _, h⟩ := exists_of_bind_ok h
          cases h
          rfl
        · cases h
          rfl
      cases hended
      rw [hresult, adds, addedBeforeCall, Option.map_some, BitVec.add_zero]

theorem instrumentNormalEdge_addsOnly {atBeginning : Bool} (hcode : cursor.code = [])
    (hinit : edge.isInitialization = false) (hcounter : edge.isCounterIncrement = false)
    (h : cursor.instrumentNormalEdge numberOfPaths edge atBeginning = .ok result) :
    AddsOnly result.code (createIncrementConstant edge.increment) ∧
      result.late = cursor.late := by
  obtain ⟨updated, hupdated, h⟩ := exists_of_bind_ok h
  rw [hcounter, if_neg Bool.false_ne_true] at h
  cases h
  rw [updateNumber, hinit, if_neg Bool.false_ne_true] at hupdated
  split at hupdated
  · obtain ⟨added, hadded, hupdated⟩ := exists_of_bind_ok hupdated
    cases hupdated
    obtain ⟨value, hlate, hadd⟩ := exists_of_add hadded
    refine ⟨?_, hlate⟩
    rw [hadd, hcode]
    exact addsOnly_add
  · rename_i hzero
    cases hupdated
    rw [not_not.mp hzero, hcode]
    exact ⟨addsOnly_nil, rfl⟩

end Cursor

namespace Emission

variable {splitter : SplitCriticalEdge} {st st' : Emission} {e q : EdgeId} {b : BlockId}
  {reached : Option NodeId}

theorem instrumentNode_atEnd (hcut : (st.dag.type e).isCut = true)
    (hexit : (st.dag.edge e).phonyExit = some q)
    (hb : st.dag.getBlock (st.dag.source e) = some b)
    (hsucc : st.dag.getNumberSuccEdges (st.dag.source e) ≤ 1)
    (h : st.instrumentNode e = .ok (st', reached)) :
    ∃ code, (st'.func.block b).front = (st.func.block b).front ∧
      (st'.func.block b).back = (st.func.block b).back ++ code ∧
      addedBeforeCall code = some (createIncrementConstant (st.dag.increment q)) := by
  have hsome : st.dag.getBlock (st.dag.source e) ≠ none := hb ▸ Option.some_ne_none b
  unfold instrumentNode at h
  dsimp only at h
  rw [if_pos ⟨hsome, hsucc⟩] at h
  obtain ⟨instrumented, hinstrumented, h⟩ := exists_of_bind_ok h
  cases h
  obtain ⟨block, cursor, hblock, hcursor, _, same⟩ := exists_of_instrumentSource hinstrumented
  obtain rfl : b = block := Option.some.inj (hb.symm.trans hblock)
  rw [instrumentCursor, if_pos hcut] at hcursor
  obtain ⟨top, _, hcursor⟩ := exists_of_bind_ok hcursor
  obtain ⟨bottom, hbottom, hcursor⟩ := exists_of_bind_ok hcursor
  obtain rfl : q = bottom := Option.some.inj (hexit.symm.trans (eq_some_of_orError hbottom))
  have hadded := Cursor.instrumentCutEdge_added rfl hcursor
  refine ⟨cursor.code ++ cursor.late, ?_, ?_, addedBeforeCall_append hadded _⟩
  · rw [(same b).1, insertAt_end]
    simp [LlvmFunction.withCode]
  · rw [(same b).2, insertAt_end]
    simp [LlvmFunction.withCode]

theorem instrumentNode_atBeginning (hcut : (st.dag.type e).isCut = false)
    (hinit : (st.dag.edge e).isInitialization = false)
    (hcounter : (st.dag.edge e).isCounterIncrement = false)
    (hb : st.dag.getBlock (st.dag.target e) = some b)
    (hsucc : 1 < st.dag.getNumberSuccEdges (st.dag.source e))
    (hpred : st.dag.getNumberPredEdges (st.dag.target e) = 1)
    (h : st.instrumentNode e = .ok (st', reached)) :
    ∃ code, (st'.func.block b).front = code ++ (st.func.block b).front ∧
      (st'.func.block b).back = (st.func.block b).back ∧
      AddsOnly code (createIncrementConstant (st.dag.increment e)) := by
  unfold instrumentNode at h
  dsimp only at h
  rw [if_neg (fun h => Nat.not_le.mpr hsucc h.2), if_pos hpred] at h
  obtain ⟨instrumented, hinstrumented, h⟩ := exists_of_bind_ok h
  cases h
  obtain ⟨pushed, block, cursor, graph, same, hblock, hcursor, rfl⟩ :=
    exists_of_instrumentTarget hinstrumented
  rw [graph.getBlock] at hblock
  obtain rfl : b = block := Option.some.inj (hb.symm.trans hblock)
  have hnot : ¬ (st.dag.edge e).type.isCut = true := Bool.eq_false_iff.mp hcut
  rw [instrumentCursor, Dag.type, graph.edge, if_neg hnot] at hcursor
  obtain ⟨adds, hlate⟩ := Cursor.instrumentNormalEdge_addsOnly rfl hinit hcounter hcursor
  refine ⟨cursor.code, ?_, ?_, adds⟩
  · rw [← (same b).1]
    simp [insertAt, LlvmFunction.modifyBlock]
  · rw [← (same b).2]
    have hlate' : cursor.late = [] := hlate
    simp [insertAt, LlvmFunction.modifyBlock, hlate']

theorem instrument_eq_instrumentNode {split : Emission}
    (hsplit : splitCritical splitter ⟨st.dag.setHasInstrumentation e, st.func⟩ e =
      some split) :
    st.instrument splitter e = split.instrumentNode e := by
  rw [instrument, hsplit]

theorem instrument_atEnd (hcut : (st.dag.type e).isCut = true)
    (hexit : (st.dag.edge e).phonyExit = some q)
    (hb : st.dag.getBlock (st.dag.source e) = some b)
    (hsucc : st.dag.getNumberSuccEdges (st.dag.source e) ≤ 1)
    (h : st.instrument splitter e = .ok (st', reached)) :
    ∃ code, (st'.func.block b).front = (st.func.block b).front ∧
      (st'.func.block b).back = (st.func.block b).back ++ code ∧
      addedBeforeCall code = some (createIncrementConstant (st.dag.increment q)) := by
  have hmarked := st.dag.setHasInstrumentation_eq e
  generalize Function.update st.dag.flags e true = flags at hmarked
  have hsplit : splitCritical splitter ⟨st.dag.setHasInstrumentation e, st.func⟩ e =
      some ⟨st.dag.withFlags flags, st.func⟩ := by
    rw [hmarked]
    exact splitCritical_of_noncritical splitter (.inl hsucc)
  rw [instrument_eq_instrumentNode hsplit] at h
  have hadded := instrumentNode_atEnd (q := q) (b := b) ?_ ?_ ?_ ?_ h
  -- nothing here depends on the flag of `e`
  · exact hadded
  · exact hcut
  · exact hexit
  · exact hb
  · exact hsucc

/-- The instructions that the emission puts between the source of the back edge `e` and
the next path: at the end of the source, or in the new block that a split has made, for
the former edge and then for the new one. -/
inductive BackEdgeCode (splitter : SplitCriticalEdge) (st : Emission) (e : EdgeId) :
    List Inst → Prop
  | atEnd {st' : Emission} {reached : Option NodeId} {source : BlockId} {code : List Inst}
      (block : st.dag.getBlock (st.dag.source e) = some source)
      (succ : st.dag.getNumberSuccEdges (st.dag.source e) ≤ 1)
      (instrumented : st.instrument splitter e = .ok (st', reached))
      (back : (st'.func.block source).back = (st.func.block source).back ++ code) :
      BackEdgeCode splitter st e code
  | split {st' st'' : Emission} {reached reached' : Option NodeId}
      {source target : BlockId} {succNum : Nat}
      (succ : 1 < st.dag.getNumberSuccEdges (st.dag.source e))
      (split : splitCritical splitter ⟨st.dag.setHasInstrumentation e, st.func⟩ e =
        some ⟨(st.dag.setHasInstrumentation e).splitUpdate e st.func.numBlocks,
          st.func.withSplitEdge source succNum target⟩)
      (former : st.instrument splitter e = .ok (st', reached))
      (new : st'.instrument splitter st.dag.numEdges = .ok (st'', reached')) :
      BackEdgeCode splitter st e ((st''.func.block st.func.numBlocks).front ++
        (st''.func.block st.func.numBlocks).back)

structure BackEdge (D : Dag) (e q : EdgeId) : Prop where
  lt : e < D.numEdges
  source_lt : D.source e < D.numNodes
  target_lt : D.target e < D.numNodes
  cut : (D.type e).isCut = true
  isInitialization : (D.edge e).isInitialization = false
  isCounterIncrement : (D.edge e).isCounterIncrement = false
  phonyExit : (D.edge e).phonyExit = some q
  phonyExit_lt : q < D.numEdges

namespace BackEdge

variable {D : Dag} {func : LlvmFunction}

theorem withFlags (backEdge : BackEdge D e q) (flags : EdgeId → Bool) :
    BackEdge (D.withFlags flags) e q :=
  { backEdge with }

/-- The former half of a split back edge is a normal edge that keeps the increment. -/
theorem former_added (backEdge : BackEdge D e q)
    (hsucc : 1 < D.getNumberSuccEdges (D.source e))
    (h : instrumentNode ⟨D.splitUpdate e b, func⟩ e = .ok (st', reached)) :
    ∃ code, (st'.func.block b).front = code ++ (func.block b).front ∧
      (st'.func.block b).back = (func.block b).back ∧
      AddsOnly code (createIncrementConstant (D.increment e)) := by
  have hedge := Dag.splitUpdate_edge_former (b := b) backEdge.lt
  obtain ⟨hinit, hcounter, hincrement⟩ := formerEdge_marks D e
  have hsource : (D.splitUpdate e b).source e = D.source e := by
    rw [Dag.splitUpdate_source backEdge.lt, if_neg (Nat.ne_of_lt backEdge.lt)]
  have htarget : (D.splitUpdate e b).target e = D.numNodes := by
    rw [Dag.splitUpdate_target backEdge.lt, if_neg (Nat.ne_of_lt backEdge.lt), if_pos rfl]
  have hadded := instrumentNode_atBeginning (b := b) ?_ ?_ ?_ ?_ ?_ ?_ h
  · rw [Dag.increment, hedge, hincrement] at hadded
    exact hadded
  · rw [Dag.type, hedge]
    exact formerEdge_isCut D e
  · rw [hedge, hinit]
    exact backEdge.isInitialization
  · rw [hedge, hcounter]
    exact backEdge.isCounterIncrement
  · rw [htarget, Dag.splitUpdate_getBlock backEdge.target_lt, if_pos rfl]
  · rw [hsource, Dag.getNumberSuccEdges, Dag.splitUpdate_succEdges backEdge.target_lt,
      if_neg (Nat.ne_of_lt backEdge.source_lt)]
    exact hsucc
  · rw [htarget, Dag.getNumberPredEdges, Dag.splitUpdate_predEdges backEdge.target_lt,
      if_pos rfl, List.length_singleton]

theorem added_of_split (backEdge : BackEdge st.dag e q) {st'' : Emission}
    {reached' : Option NodeId} {source target : BlockId} {succNum : Nat}
    (hsucc : 1 < st.dag.getNumberSuccEdges (st.dag.source e))
    (hsplit : splitCritical splitter ⟨st.dag.setHasInstrumentation e, st.func⟩ e =
      some ⟨(st.dag.setHasInstrumentation e).splitUpdate e st.func.numBlocks,
        st.func.withSplitEdge source succNum target⟩)
    (hformer : st.instrument splitter e = .ok (st', reached))
    (hnew : st'.instrument splitter st.dag.numEdges = .ok (st'', reached')) :
    addedBeforeCall ((st''.func.block st.func.numBlocks).front ++
        (st''.func.block st.func.numBlocks).back) =
      some (createIncrementConstant (st.dag.increment e) +
        createIncrementConstant (st.dag.increment q)) := by
  have worked := instrument_worked hformer
  rw [instrument_eq_instrumentNode hsplit, Dag.setHasInstrumentation_eq] at hformer
  generalize Function.update st.dag.flags e true = flags at hformer
  have marked := backEdge.withFlags flags
  have same := instrumentNode_sameGraph hformer
  obtain ⟨front, hfront, hback, adds⟩ := marked.former_added hsucc hformer
  have hedge : st'.dag.edge st.dag.numEdges = (st.dag.withFlags flags).newEdge e := by
    rw [same.edge]
    exact Dag.splitUpdate_edge_new marked.lt
  rw [Dag.newEdge, if_pos marked.cut] at hedge
  have hsource : st'.dag.source st.dag.numEdges = st.dag.numNodes := by
    rw [Dag.source, hedge]
    rfl
  obtain ⟨code, hfront', hback', hadded⟩ := instrument_atEnd (q := q)
    (b := st.func.numBlocks) (by rw [Dag.type, hedge]; exact backEdge.cut)
    (by rw [hedge]; exact backEdge.phonyExit)
    (by rw [hsource, same.getBlock]
        exact (Dag.splitUpdate_getBlock marked.target_lt _).trans (if_pos rfl))
    (by rw [hsource, Dag.getNumberSuccEdges, same.succEdges]
        exact (congrArg List.length ((Dag.splitUpdate_succEdges marked.target_lt _).trans
          (if_pos rfl))).le)
    hnew
  rw [LlvmFunction.withSplitEdge_block_new] at hfront hback
  rw [hfront', hback', hfront, hback, List.append_nil, List.nil_append, adds, hadded,
    worked.increment_eq backEdge.phonyExit_lt]
  rfl

/-- The code adds the increment of the phony exit edge, and in the new block of a split
edge that of the edge itself as well. -/
theorem added (backEdge : BackEdge st.dag e q) {code : List Inst}
    (hcode : BackEdgeCode splitter st e code) :
    addedBeforeCall code =
      some (if st.dag.getNumberSuccEdges (st.dag.source e) ≤ 1 then
          createIncrementConstant (st.dag.increment q)
        else createIncrementConstant (st.dag.increment e) +
          createIncrementConstant (st.dag.increment q)) := by
  cases hcode with
  | atEnd hblock hsucc h hback =>
      obtain ⟨code', _, hback', hadded⟩ :=
        instrument_atEnd backEdge.cut backEdge.phonyExit hblock hsucc h
      rw [List.append_cancel_left (hback.symm.trans hback'), if_pos hsucc]
      exact hadded
  | split hsucc hsplit hformer hnew =>
      rw [if_neg (Nat.not_le.mpr hsucc)]
      exact backEdge.added_of_split hsucc hsplit hformer hnew

end BackEdge

end Emission

theorem Dag.Pushed.backEdge {D : Dag} (shape : D.BallLarus) (unmarked : D.Unmarked)
    {exitRoot e q : EdgeId} {init counter : Data.Marks EdgeId Int}
    (pushed : D.Pushed exitRoot init counter) {splitter : SplitCriticalEdge}
    {F : LlvmFunction} {st : Emission}
    (steps : Emission.Steps splitter ⟨(D.withMarks init counter).unlinkPhony, F⟩ st)
    (he : e < D.numEdges) (hcut : (D.type e).isCut = true)
    (hexit : (D.edge e).phonyExit = some q)
    (hflag : (st.dag.edge e).hasInstrumentation = false) :
    Emission.BackEdge st.dag e q ∧ st.dag.increment e = D.increment e ∧
      st.dag.increment q = (D.withMarks init counter).increment q := by
  rw [shape.withMarks.links.unlinkPhony_eq] at steps
  have kept := steps.kept
  obtain ⟨hinit, hcounter, hincrement⟩ := (pushed.placed shape unmarked).cut e he hcut
  obtain ⟨q', hexit', hq, _⟩ := shape.phonyExit e he hcut
  obtain rfl : q = q' := Option.some.inj (hexit.symm.trans hexit')
  have hedge : st.dag.edge e = (D.withMarks init counter).edge e := kept.edge e he hflag
  refine ⟨?_, ?_, kept.increment q hq⟩
  · exact
      { lt := Nat.lt_of_lt_of_le he kept.numEdges
        source_lt := by
          rw [Dag.source, hedge]
          exact Nat.lt_of_lt_of_le (shape.source_lt e he) kept.numNodes
        target_lt := by
          rw [Dag.target, hedge]
          exact Nat.lt_of_lt_of_le (shape.target_lt e he) kept.numNodes
        cut := by rw [Dag.type, hedge]; exact hcut
        isInitialization := by rw [hedge]; exact hinit
        isCounterIncrement := by rw [hedge]; exact hcounter
        phonyExit := by rw [hedge]; exact hexit
        phonyExit_lt := Nat.lt_of_lt_of_le hq kept.numEdges }
  · rw [Dag.increment, hedge]
    exact hincrement

/-- For every spanning tree: the code on a back edge adds the increment of its phony
exit edge just when it is put at the end of the source, or the back edge itself has no
increment. -/
theorem backEdge_adds_phonyExit_iff {D : Dag} (shape : D.BallLarus)
    (split : D.TreeAndChords) (zero : ∀ e, e < D.numEdges → D.increment e = 0)
    (unmarked : D.Unmarked) :
    ∃ bound, ∀ fuel, bound ≤ fuel → ∃ D₁, D.calculateChordIncrements fuel = some D₁ ∧
      ∃ bound', ∀ fuel', bound' ≤ fuel' → ∃ D₂ D₃,
        D₁.pushInitialization fuel' = some D₂ ∧ D₂.pushCounters fuel' = some D₃ ∧
        ∀ splitter F st e q code,
          Emission.Steps splitter ⟨D₃.unlinkPhony, F⟩ st →
          e < D.numEdges → D.type e = .backedge → (D.edge e).phonyExit = some q →
          (st.dag.edge e).hasInstrumentation = false →
          Emission.BackEdgeCode splitter st e code →
          (addedBeforeCall code = some (createIncrementConstant (D₃.increment q)) ↔
            st.dag.getNumberSuccEdges (st.dag.source e) ≤ 1 ∨
              createIncrementConstant (D₁.increment e) = 0#32) := by
  obtain ⟨bound, potential, hbound⟩ := shape.calculateChordIncrements_potential split zero
  refine ⟨bound, fun fuel hfuel => ?_⟩
  obtain ⟨increment, hchords, _, _⟩ := hbound fuel hfuel
  have shape₁ : (D.withIncrements increment).BallLarus := { shape with }
  have unmarked₁ : (D.withIncrements increment).Unmarked := { unmarked with }
  obtain ⟨bound', exitRoot, _, hpush⟩ := shape₁.push_relocated
  refine ⟨_, hchords, bound', fun fuel' hfuel' => ?_⟩
  obtain ⟨init, counter, hinit, hcounter, pushed⟩ := hpush fuel' hfuel'
  refine ⟨_, _, hinit, hcounter, ?_⟩
  intro splitter F st e q code steps he hback hexit hflag hcode
  have hcut : (D.type e).isCut = true := by
    rw [hback]
    rfl
  obtain ⟨backEdge, hincrement, hincrementExit⟩ :=
    pushed.backEdge shape₁ unmarked₁ steps he hcut hexit hflag
  rw [backEdge.added hcode, hincrement, hincrementExit, Option.some.injEq]
  by_cases hsucc : st.dag.getNumberSuccEdges (st.dag.source e) ≤ 1
  · exact iff_of_true (if_pos hsucc) (.inl hsucc)
  · rw [if_neg hsucc, or_iff_right hsucc]
    exact BitVec.add_left_eq_self

/-- In a `while` loop the source of the back edge has no other successor. -/
theorem backEdge_adds_phonyExit_iff_whileLoopTree :
    ∃ bound, ∀ fuel, bound ≤ fuel → ∃ D₁,
      Dag.whileLoopTree.calculateChordIncrements fuel = some D₁ ∧
      ∃ bound', ∀ fuel', bound' ≤ fuel' → ∃ D₂ D₃,
        D₁.pushInitialization fuel' = some D₂ ∧ D₂.pushCounters fuel' = some D₃ ∧
        ∀ splitter st code,
          Emission.Steps splitter ⟨D₃.unlinkPhony, whileLoopFunction⟩ st →
          (st.dag.edge 3).hasInstrumentation = false →
          st.dag.getNumberSuccEdges (st.dag.source 3) ≤ 1 →
          Emission.BackEdgeCode splitter st 3 code →
          addedBeforeCall code = some (createIncrementConstant (D₃.increment 7)) := by
  obtain ⟨bound, hbound⟩ := backEdge_adds_phonyExit_iff Dag.whileLoopTree_ballLarus
    Dag.whileLoopTree_treeAndChords (by decide) ⟨by decide, by decide⟩
  refine ⟨bound, fun fuel hfuel => ?_⟩
  obtain ⟨D₁, hchords, bound', hbound'⟩ := hbound fuel hfuel
  refine ⟨D₁, hchords, bound', fun fuel' hfuel' => ?_⟩
  obtain ⟨D₂, D₃, hinit, hcounter, hadded⟩ := hbound' fuel' hfuel'
  refine ⟨D₂, D₃, hinit, hcounter, fun splitter st code steps hflag hsucc hcode => ?_⟩
  exact (hadded splitter whileLoopFunction st 3 7 code steps (by decide) (by decide)
    (by decide) hflag hcode).mpr (.inl hsucc)

/-! A `do`-`while` loop of two blocks, whose back edge is critical, with a spanning tree
that leaves this edge out. -/

def doWhileFunction : LlvmFunction :=
  .ofBlocks
    [ { terminator := .br, successors := [1] },
      { terminator := .br, successors := [2] },
      { terminator := .br, successors := [3, 1] },
      { terminator := .ret, successors := [] } ]

def doWhile : Dag :=
  Dag.ofEdges [some 0, none, some 1, some 2, some 3]
    [ { source := 0, target := 2 },
      { source := 2, target := 3 },
      { source := 3, target := 4 },
      { source := 3, target := 2, type := .backedge,
        phonyRoot := some 4, phonyExit := some 5 },
      { source := 0, target := 2, type := .backedgePhony, weight := 2 },
      { source := 3, target := 1, type := .backedgePhony, weight := 1 },
      { source := 4, target := 1 },
      { source := 1, target := 0 } ]
    0 1 4

theorem doWhile_ballLarus : doWhile.BallLarus where
  root_lt := by decide
  exit_lt := by decide
  root_ne_exit := by decide
  source_lt := by decide
  target_lt := by decide
  mem_succEdges := Dag.mem_succEdges_ofEdges
  mem_predEdges := Dag.mem_predEdges_ofEdges
  nodup_succEdges := Dag.nodup_succEdges_ofEdges
  nodup_predEdges := Dag.nodup_predEdges_ofEdges
  exitRoot := ⟨7, by decide⟩
  cut_target := by decide
  phonyRoot := by
    intro e he hcut
    have : e = 3 := by revert e; decide
    exact ⟨4, by subst this; decide⟩
  phonyExit := by
    intro e he hcut
    have : e = 3 := by revert e; decide
    exact ⟨5, by subst this; decide⟩
  phony_target := by
    intro r hr hphony hexit
    have : r = 4 := by revert r; decide
    exact ⟨3, by subst this; decide⟩
  no_callPhony := by decide
  acyclic := ⟨fun x => [4, 0, 3, 2, 1].getD x 0, by
    rintro e ⟨he, hcut, hexit⟩
    revert e
    decide⟩
  from_root := by
    intro x hx _
    refine ⟨[[], [0, 1, 2, 6], [0], [0, 1], [0, 1, 2]].getD x [], ?_⟩
    revert x
    decide
  to_exit := by
    intro x hx
    refine ⟨[[0, 1, 2, 6], [], [1, 2, 6], [2, 6], [6]].getD x [], ?_⟩
    revert x
    decide
  backedge_loop := by
    intro e he hback
    have : e = 3 := by revert e; decide
    exact ⟨[1], by subst this; decide⟩
  numberOfPaths_pos := by decide

def doWhileTree : Dag :=
  { doWhile with treeEdges := [0, 5, 6, 7], chordEdges := [1, 2, 3, 4] }

theorem doWhileTree_ballLarus : doWhileTree.BallLarus :=
  { doWhile_ballLarus with }

theorem doWhileTree_connected {e : EdgeId} (member : e ∈ doWhileTree.treeEdges) :
    Data.Connected doWhileTree.source doWhileTree.target doWhileTree.treeEdges
      (doWhileTree.target e) (doWhileTree.source e) :=
  .single ⟨e, member, .inr ⟨rfl, rfl⟩⟩

theorem doWhileTree_treeAndChords : doWhileTree.TreeAndChords where
  tree := {
    spans := by
      have exit := doWhileTree_connected (e := 7) (by decide)
      have ret := exit.trans (doWhileTree_connected (e := 6) (by decide))
      have latch := exit.trans (doWhileTree_connected (e := 5) (by decide))
      intro x hx
      match x, hx with
      | 0, _ => exact .refl
      | 1, _ => exact exit
      | 2, _ => exact .single ⟨0, by decide, .inl ⟨rfl, rfl⟩⟩
      | 3, _ => exact latch
      | 4, _ => exact ret
      | x + 5, hx => exact absurd hx (Nat.not_lt.mpr (Nat.le_add_left 5 x))
    acyclic := by
      intro e member
      -- the nodes on the side of the tree edge's target
      refine Data.not_connected_of_closed
        (fun x => x ∉ ([[2], [], [], [], [], [0, 1, 2, 4],
          [0, 1, 2, 3], [0, 2]].getD e [])) ?_ ?_ ?_
      all_goals
        revert e
        decide }
  mem_treeEdges := by decide
  mem_chordEdges := by
    intro e
    constructor
    · revert e
      decide
    · rintro ⟨he, hnot⟩
      revert e
      decide
  nodup_chordEdges := by decide

theorem eq_ok_get {ε α : Type} (value : Except ε α) (h : value.toOption.isSome) :
    value = .ok (value.toOption.get h) := by
  cases value with
  | error error => cases h
  | ok a => rfl

def doWhileTreePasses : Option Dag :=
  (doWhileTree.calculateChordIncrements 8).bind fun D₁ =>
    (D₁.pushInitialization 8).bind fun D₂ => D₂.pushCounters 8

def doWhileTreeMarked : Dag := doWhileTreePasses.get (by decide +kernel)

def doWhileTreeEmission : Except EmitError Emission :=
  Emission.instrumentAll splitCriticalEdge ⟨doWhileTreeMarked.unlinkPhony, doWhileFunction⟩
    [7, 0, 1, 2, 6]

def doWhileTreeState : Emission := doWhileTreeEmission.toOption.get (by decide +kernel)

/-- The code of the split back edge adds `-1` where its phony exit edge has `0`. -/
theorem doWhileTree_adds_own_increment :
    doWhileTree.BallLarus ∧ doWhileTree.TreeAndChords ∧ doWhileTree.Unmarked ∧
      (∀ e, e < doWhileTree.numEdges → doWhileTree.increment e = 0) ∧
      doWhileTree.type 3 = .backedge ∧ (doWhileTree.edge 3).phonyExit = some 5 ∧
      ∃ D₁ D₂ D₃ st code,
        doWhileTree.calculateChordIncrements 8 = some D₁ ∧
        D₁.pushInitialization 8 = some D₂ ∧ D₂.pushCounters 8 = some D₃ ∧
        Emission.Steps splitCriticalEdge ⟨D₃.unlinkPhony, doWhileFunction⟩ st ∧
        (st.dag.edge 3).hasInstrumentation = false ∧
        Emission.BackEdgeCode splitCriticalEdge st 3 code ∧
        addedBeforeCall code = some (-1#32) ∧ D₃.increment 5 = 0 := by
  have hmarked : doWhileTreePasses = some doWhileTreeMarked := (Option.some_get _).symm
  obtain ⟨D₁, hchords, hmarked⟩ := Option.bind_eq_some_iff.mp hmarked
  obtain ⟨D₂, hinit, hcounter⟩ := Option.bind_eq_some_iff.mp hmarked
  have steps : Emission.Steps splitCriticalEdge
      ⟨doWhileTreeMarked.unlinkPhony, doWhileFunction⟩ doWhileTreeState :=
    Emission.instrumentAll_steps (eq_ok_get doWhileTreeEmission _)
  have hsplit := splitCritical_of_critical splitCriticalEdge (e := 3)
    (D := doWhileTreeState.dag.setHasInstrumentation 3) (F := doWhileTreeState.func)
    (by decide +kernel : _ = some 2) (by decide +kernel : _ = some 1) (by decide +kernel)
    (by decide +kernel) (by decide +kernel : _[1]? = _) (by decide +kernel)
    (by decide +kernel) (by decide +kernel) (by decide +kernel) (by decide +kernel)
  obtain ⟨⟨st'', reached'⟩, hemitted⟩ : ∃ emitted,
      (doWhileTreeState.instrument splitCriticalEdge 3 >>= fun former =>
        former.1.instrument splitCriticalEdge doWhileTreeState.dag.numEdges) = .ok emitted :=
    ⟨_, eq_ok_get _ (by decide +kernel)⟩
  obtain ⟨⟨st', reached⟩, hformer, hnew⟩ := exists_of_bind_ok hemitted
  have backEdge : Emission.BackEdge doWhileTreeState.dag 3 5 := by
    constructor
    all_goals decide +kernel
  have hsucc : 1 < doWhileTreeState.dag.getNumberSuccEdges
      (doWhileTreeState.dag.source 3) := by decide +kernel
  have hadded := backEdge.added_of_split hsucc hsplit hformer hnew
  refine ⟨doWhileTree_ballLarus, doWhileTree_treeAndChords, ⟨by decide, by decide⟩,
    by decide, by decide, by decide, D₁, D₂, doWhileTreeMarked, doWhileTreeState, _, hchords,
    hinit, hcounter, steps, by decide +kernel, .split hsucc hsplit hformer hnew, hadded.trans ?_, ?_⟩
  all_goals decide +kernel

end RrWorkbench.PathLogging
