import RrWorkbench.PathLogging.EmissionOrigin

namespace RrWorkbench.PathLogging

/-! The emission as a sequence of steps, one for each edge that is instrumented, and
what any such sequence leaves alone. -/

theorem exists_of_bind_ok {ε α β : Type} {value : Except ε α} {next : α → Except ε β}
    {b : β} (h : (value >>= next) = .ok b) : ∃ a, value = .ok a ∧ next a = .ok b := by
  cases value with
  | error error => cases h
  | ok a => exact ⟨a, rfl, h⟩

theorem eq_some_of_orError {α : Type} {value : Option α} {error : EmitError} {a : α}
    (h : orError value error = .ok a) : value = some a := by
  cases value with
  | none => cases h
  | some value =>
      cases h
      rfl

namespace Dag

theorem setHasInstrumentation_increment (D : Dag) (e f : EdgeId) :
    (D.setHasInstrumentation e).increment f = D.increment f := by
  rw [setHasInstrumentation_eq]
  rfl

theorem setHasInstrumentation_self (D : Dag) (e : EdgeId) :
    ((D.setHasInstrumentation e).edge e).hasInstrumentation = true := by
  rw [setHasInstrumentation, modifyEdge_edge_self]

theorem setHasInstrumentation_edge_of_ne (D : Dag) {e f : EdgeId} (hne : f ≠ e) :
    (D.setHasInstrumentation e).edge f = D.edge f :=
  modifyEdge_edge_of_ne _ hne

end Dag

namespace Emission

structure SameGraph (st st' : Emission) : Prop where
  edge : st'.dag.edge = st.dag.edge
  numEdges : st'.dag.numEdges = st.dag.numEdges
  numNodes : st'.dag.numNodes = st.dag.numNodes
  succEdges : st'.dag.succEdges = st.dag.succEdges
  getBlock : st'.dag.getBlock = st.dag.getBlock

def SameCode (st st' : Emission) : Prop :=
  ∀ b, (st'.func.block b).front = (st.func.block b).front ∧
    (st'.func.block b).back = (st.func.block b).back

variable {st st' st'' : Emission} {e : EdgeId} {x y : NodeId} {reached : Option NodeId}

theorem SameGraph.refl (st : Emission) : SameGraph st st := ⟨rfl, rfl, rfl, rfl, rfl⟩

theorem SameGraph.trans (first : SameGraph st st') (second : SameGraph st' st'') :
    SameGraph st st'' where
  edge := second.edge.trans first.edge
  numEdges := second.numEdges.trans first.numEdges
  numNodes := second.numNodes.trans first.numNodes
  succEdges := second.succEdges.trans first.succEdges
  getBlock := second.getBlock.trans first.getBlock

theorem sameGraph_modifyNode {func : LlvmFunction} {change : Node → Node}
    (hsucc : ∀ node, (change node).succEdges = node.succEdges)
    (hblock : ∀ node, (change node).block = node.block) :
    SameGraph st ⟨st.dag.modifyNode x change, func⟩ := by
  have hnode : ∀ y, (change (st.dag.node x) = (st.dag.modifyNode x change).node y ∧ x = y) ∨
      (st.dag.modifyNode x change).node y = st.dag.node y := by
    intro y
    by_cases hy : y = x
    · subst hy
      exact .inl ⟨(Dag.modifyNode_node_self y change).symm, rfl⟩
    · exact .inr (Dag.modifyNode_node_of_ne change hy)
  refine ⟨rfl, rfl, rfl, funext fun y => ?_, funext fun y => ?_⟩
  · rcases hnode y with ⟨hself, rfl⟩ | hother
    · exact (congrArg Node.succEdges hself.symm).trans (hsucc _)
    · exact congrArg Node.succEdges hother
  · rcases hnode y with ⟨hself, rfl⟩ | hother
    · exact (congrArg Node.block hself.symm).trans (hblock _)
    · exact congrArg Node.block hother

theorem sameGraph_insertAt {block : BlockId} {atBeginning : Bool} {cursor : Cursor} :
    SameGraph st (st.insertAt x block atBeginning cursor) :=
  sameGraph_modifyNode (fun _ => rfl) fun _ => rfl

theorem sameCode_modifyBlock {dag : Dag} {b : BlockId}
    {pathPHI : Option (List (Value × BlockId))} :
    SameCode st ⟨dag, st.func.modifyBlock b fun code => { code with pathPHI := pathPHI }⟩ := by
  intro c
  by_cases hc : c = b
  · subst hc
    rw [LlvmFunction.modifyBlock_self]
    exact ⟨rfl, rfl⟩
  · rw [LlvmFunction.modifyBlock_of_ne _ _ hc]
    exact ⟨rfl, rfl⟩

theorem preparePHI_frame (h : st.preparePHI x = .ok st') :
    SameGraph st st' ∧ SameCode st st' := by
  obtain ⟨block, _, h⟩ := exists_of_bind_ok h
  cases h
  exact ⟨sameGraph_modifyNode (fun _ => rfl) fun _ => rfl, sameCode_modifyBlock⟩

theorem pushValueIntoPHI_frame (h : st.pushValueIntoPHI x y = .ok st') :
    SameGraph st st' ∧ SameCode st st' := by
  obtain ⟨phi, _, h⟩ := exists_of_bind_ok h
  obtain ⟨entries, _, h⟩ := exists_of_bind_ok h
  obtain ⟨sourceBlock, _, h⟩ := exists_of_bind_ok h
  obtain ⟨removed, _, h⟩ := exists_of_bind_ok h
  obtain ⟨value, _, h⟩ := exists_of_bind_ok h
  cases h
  exact ⟨⟨rfl, rfl, rfl, rfl, rfl⟩, sameCode_modifyBlock⟩

theorem pushValueIntoNode_frame (h : st.pushValueIntoNode x y = .ok st') :
    SameGraph st st' ∧ SameCode st st' := by
  unfold pushValueIntoNode at h
  split at h
  · cases h
    exact ⟨.refl _, fun _ => ⟨rfl, rfl⟩⟩
  · split at h
    · split at h
      · cases h
      · cases h
        exact ⟨sameGraph_modifyNode (fun _ => rfl) fun _ => rfl, fun _ => ⟨rfl, rfl⟩⟩
    · dsimp only at h
      split at h
      · obtain ⟨prepared, hprepared, h⟩ := exists_of_bind_ok h
        have first := preparePHI_frame hprepared
        have second := pushValueIntoPHI_frame h
        exact ⟨first.1.trans second.1, fun b =>
          ⟨(second.2 b).1.trans (first.2 b).1, (second.2 b).2.trans (first.2 b).2⟩⟩
      · exact pushValueIntoPHI_frame h

theorem exists_of_instrumentEdge {atBeginning : Bool}
    (h : st.instrumentEdge e x atBeginning = .ok st') :
    ∃ block cursor, st.dag.getBlock x = some block ∧
      instrumentCursor st.dag e (st.cursorAt x) atBeginning = .ok cursor ∧
      st' = st.insertAt x block atBeginning cursor := by
  obtain ⟨block, hblock, h⟩ := exists_of_bind_ok h
  obtain ⟨cursor, hcursor, h⟩ := exists_of_bind_ok h
  cases h
  exact ⟨block, cursor, eq_some_of_orError hblock, hcursor, rfl⟩

theorem exists_of_instrumentSource (h : st.instrumentSource e x y = .ok st') :
    ∃ block cursor, st.dag.getBlock x = some block ∧
      instrumentCursor st.dag e (st.cursorAt x) false = .ok cursor ∧
      SameGraph st st' ∧ SameCode (st.insertAt x block false cursor) st' := by
  obtain ⟨inserted, hinserted, h⟩ := exists_of_bind_ok h
  obtain ⟨block, cursor, hblock, hcursor, rfl⟩ := exists_of_instrumentEdge hinserted
  refine ⟨block, cursor, hblock, hcursor, ?_⟩
  split at h
  · have pushed := pushValueIntoNode_frame h
    exact ⟨sameGraph_insertAt.trans pushed.1, pushed.2⟩
  · cases h
    exact ⟨sameGraph_insertAt, fun _ => ⟨rfl, rfl⟩⟩

theorem exists_of_instrumentTarget (h : st.instrumentTarget e x y = .ok st') :
    ∃ pushed block cursor, SameGraph st pushed ∧ SameCode st pushed ∧
      pushed.dag.getBlock y = some block ∧
      instrumentCursor pushed.dag e (pushed.cursorAt y) true = .ok cursor ∧
      st' = pushed.insertAt y block true cursor := by
  obtain ⟨pushed, hpushed, h⟩ := exists_of_bind_ok h
  have frame := pushValueIntoNode_frame hpushed
  obtain ⟨block, cursor, hblock, hcursor, rfl⟩ := exists_of_instrumentEdge h
  exact ⟨pushed, block, cursor, frame.1, frame.2, hblock, hcursor, rfl⟩

theorem instrumentNode_sameGraph (h : st.instrumentNode e = .ok (st', reached)) :
    SameGraph st st' := by
  unfold instrumentNode at h
  dsimp only at h
  split at h
  · obtain ⟨instrumented, hsource, h⟩ := exists_of_bind_ok h
    cases h
    obtain ⟨_, _, _, _, same, _⟩ := exists_of_instrumentSource hsource
    exact same
  · split at h
    · obtain ⟨instrumented, htarget, h⟩ := exists_of_bind_ok h
      cases h
      obtain ⟨_, _, _, same, _, _, _, rfl⟩ := exists_of_instrumentTarget htarget
      exact same.trans sameGraph_insertAt
    · cases h
      exact .refl _

theorem splitCritical_dag {splitter : SplitCriticalEdge}
    (h : st.splitCritical splitter e = some st') :
    st'.dag = st.dag ∨ ∃ b, st'.dag = st.dag.splitUpdate e b := by
  unfold splitCritical at h
  dsimp only at h
  split at h
  · split at h
    · cases h
      exact .inl rfl
    · split at h
      · cases h
      · split at h
        · split at h
          · cases h
            exact .inr ⟨_, rfl⟩
          · cases h
            exact .inl rfl
        · cases h
          exact .inl rfl
  · cases h
    exact .inl rfl

/-- What the work on the edge `e` does to the records of the edges there are. -/
structure Worked (e : EdgeId) (st st' : Emission) : Prop where
  numEdges : st.dag.numEdges ≤ st'.dag.numEdges
  numNodes : st.dag.numNodes ≤ st'.dag.numNodes
  other : ∀ f, f < st.dag.numEdges → f ≠ e → st'.dag.edge f = st.dag.edge f
  increment : e < st.dag.numEdges → st'.dag.increment e = st.dag.increment e
  hasInstrumentation : e < st.dag.numEdges →
    (st'.dag.edge e).hasInstrumentation = true

theorem Worked.increment_eq (worked : Worked e st st') {f : EdgeId}
    (hf : f < st.dag.numEdges) : st'.dag.increment f = st.dag.increment f := by
  by_cases hne : f = e
  · subst hne
    exact worked.increment hf
  · exact congrArg Edge.increment (worked.other f hf hne)

theorem instrument_worked {splitter : SplitCriticalEdge}
    (h : st.instrument splitter e = .ok (st', reached)) : Worked e st st' := by
  have marked : Worked e st { st with dag := st.dag.setHasInstrumentation e } :=
    { numEdges := Nat.le_refl _
      numNodes := Nat.le_refl _
      other := fun _ _ hne => st.dag.setHasInstrumentation_edge_of_ne hne
      increment := fun _ => st.dag.setHasInstrumentation_increment e e
      hasInstrumentation := fun _ => st.dag.setHasInstrumentation_self e }
  unfold instrument at h
  dsimp only at h
  split at h
  · cases h
    exact marked
  · rename_i split hsplit
    have same := instrumentNode_sameGraph h
    rcases splitCritical_dag hsplit with hdag | ⟨b, hdag⟩
    · exact
        { numEdges := by rw [same.numEdges, hdag]; exact marked.numEdges
          numNodes := by rw [same.numNodes, hdag]; exact marked.numNodes
          other := by rw [same.edge, hdag]; exact marked.other
          increment := by rw [Dag.increment, same.edge, hdag]; exact marked.increment
          hasInstrumentation := by rw [same.edge, hdag]; exact marked.hasInstrumentation }
    · have former : ∀ he : e < (st.dag.setHasInstrumentation e).numEdges,
          st'.dag.edge e = (st.dag.setHasInstrumentation e).formerEdge e := by
        intro he
        rw [same.edge, hdag]
        exact Dag.splitUpdate_edge_former he
      refine
        { numEdges := ?_, numNodes := ?_, other := ?_, increment := ?_
          hasInstrumentation := ?_ }
      · rw [same.numEdges, hdag, Dag.splitUpdate_numEdges]
        exact Nat.le_succ _
      · rw [same.numNodes, hdag, Dag.splitUpdate_numNodes]
        exact Nat.le_succ _
      · intro f hf hne
        rw [same.edge, hdag]
        exact (Dag.splitUpdate_edge_of_ne (D := st.dag.setHasInstrumentation e) hf hne).trans
          (marked.other f hf hne)
      · intro he
        rw [Dag.increment, former he]
        exact (formerEdge_marks _ e).2.2.trans (marked.increment he)
      · intro he
        rw [former he]
        exact (formerEdge_hasInstrumentation _ e).trans (marked.hasInstrumentation he)

def Step (splitter : SplitCriticalEdge) (st st' : Emission) : Prop :=
  ∃ e reached, st.instrument splitter e = .ok (st', reached)

abbrev Steps (splitter : SplitCriticalEdge) : Emission → Emission → Prop :=
  Relation.ReflTransGen (Step splitter)

theorem foldlM_steps {splitter : SplitCriticalEdge}
    {body : Emission → EdgeId → Except EmitError Emission}
    (hbody : ∀ st next st', body st next = .ok st' → Steps splitter st st')
    {edges : List EdgeId} (h : edges.foldlM body st = .ok st') : Steps splitter st st' := by
  induction edges generalizing st with
  | nil =>
      cases h
      exact .refl
  | cons next rest ih =>
      rw [List.foldlM_cons] at h
      obtain ⟨middle, hmiddle, h⟩ := exists_of_bind_ok h
      exact (hbody _ _ _ hmiddle).trans (ih h)

def instrumentAll (splitter : SplitCriticalEdge) (st : Emission) (edges : List EdgeId) :
    Except EmitError Emission :=
  edges.foldlM (fun st e => do
    let (st, _) ← st.instrument splitter e
    .ok st) st

theorem instrumentAll_steps {splitter : SplitCriticalEdge} {edges : List EdgeId}
    (h : st.instrumentAll splitter edges = .ok st') : Steps splitter st st' := by
  refine foldlM_steps (fun st e st' hnext => ?_) h
  obtain ⟨⟨instrumented, reached⟩, hinstrument, hnext⟩ := exists_of_bind_ok hnext
  cases hnext
  exact .single ⟨e, reached, hinstrument⟩

/-- The recursion takes such steps. -/
theorem insertInstrumentationStartingAt_steps {splitter : SplitCriticalEdge} {fuel : Nat}
    (h : insertInstrumentationStartingAt splitter fuel st e = .ok st') :
    Steps splitter st st' := by
  induction fuel generalizing st e st' with
  | zero => cases h
  | succ fuel ih =>
      obtain ⟨⟨instrumented, reached⟩, hinstrument, h⟩ := exists_of_bind_ok h
      have first : Steps splitter st instrumented := .single ⟨e, reached, hinstrument⟩
      cases reached with
      | none =>
          cases h
          exact first
      | some targetNode =>
          refine first.trans (foldlM_steps (fun st next st' hnext => ?_) h)
          split at hnext
          · cases hnext
            exact .refl
          · exact ih hnext

structure Kept (st st' : Emission) : Prop where
  numEdges : st.dag.numEdges ≤ st'.dag.numEdges
  numNodes : st.dag.numNodes ≤ st'.dag.numNodes
  increment : ∀ f, f < st.dag.numEdges → st'.dag.increment f = st.dag.increment f
  edge : ∀ f, f < st.dag.numEdges → (st'.dag.edge f).hasInstrumentation = false →
    st'.dag.edge f = st.dag.edge f

theorem Steps.kept {splitter : SplitCriticalEdge} (steps : Steps splitter st st') :
    Kept st st' := by
  induction steps with
  | refl => exact ⟨Nat.le_refl _, Nat.le_refl _, fun _ _ => rfl, fun _ _ _ => rfl⟩
  | tail _ step ih =>
      obtain ⟨e, reached, h⟩ := step
      have worked := instrument_worked h
      refine ⟨ih.numEdges.trans worked.numEdges, ih.numNodes.trans worked.numNodes, ?_, ?_⟩
      · intro f hf
        exact (worked.increment_eq (Nat.lt_of_lt_of_le hf ih.numEdges)).trans
          (ih.increment f hf)
      · intro f hf hflag
        have hf' := Nat.lt_of_lt_of_le hf ih.numEdges
        have hne : f ≠ e := by
          rintro rfl
          rw [worked.hasInstrumentation hf'] at hflag
          cases hflag
        have hedge := worked.other f hf' hne
        rw [hedge] at hflag ⊢
        exact ih.edge f hf hflag

end Emission

end RrWorkbench.PathLogging
