import RrWorkbench.PathLogging.Instrument

namespace RrWorkbench.PathLogging

/-! The calls that `insertInstrumentationStartingAt` makes, itself included. -/

structure Call where
  edge : EdgeId
  split : Bool
  deriving DecidableEq, Repr

namespace Emission

/-- `insertInstrumentationStartingAt` with its calls, in order. -/
def insertInstrumentationCalls (splitter : SplitCriticalEdge) :
    Nat → Emission → EdgeId → Except EmitError (Emission × List Call)
  | 0, _, _ => .error .outOfFuel
  | fuel + 1, st, e => do
      let (st', reached) ← st.instrument splitter e
      let call : Call := ⟨e, decide (st.dag.numEdges < st'.dag.numEdges)⟩
      match reached with
      | none => .ok (st', [call])
      | some targetNode =>
          (st'.dag.succEdges targetNode).foldlM
            (fun (made : Emission × List Call) next =>
              if (made.1.dag.edge next).hasInstrumentation then .ok made
              else do
                let (st, calls) ← insertInstrumentationCalls splitter fuel made.1 next
                .ok (st, made.2 ++ calls))
            (st', [call])

/-- Forgetting the calls leaves the function. -/
theorem map_fst_insertInstrumentationCalls (splitter : SplitCriticalEdge) (fuel : Nat)
    (st : Emission) (e : EdgeId) :
    (insertInstrumentationCalls splitter fuel st e).map Prod.fst =
      insertInstrumentationStartingAt splitter fuel st e := by
  induction fuel generalizing st e with
  | zero => rfl
  | succ fuel ih =>
      rw [insertInstrumentationCalls, insertInstrumentationStartingAt]
      cases st.instrument splitter e with
      | error error => rfl
      | ok result =>
          obtain ⟨st', reached⟩ := result
          cases reached with
          | none => rfl
          | some targetNode =>
              refine (foldlM_view (m := Except EmitError) Prod.fst _ _ _
                (fun next _ made => ?_) _).symm
              cases (made.1.dag.edge next).hasInstrumentation with
              | true => rfl
              | false =>
                  rw [if_neg Bool.false_ne_true, if_neg Bool.false_ne_true,
                    ← ih made.1 next]
                  cases insertInstrumentationCalls splitter fuel made.1 next with
                  | error error => rfl
                  | ok result => rfl

end Emission

end RrWorkbench.PathLogging
