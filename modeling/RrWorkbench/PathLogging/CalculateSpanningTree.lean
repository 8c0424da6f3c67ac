import RrWorkbench.Data.SpanningTree
import RrWorkbench.PathLogging.Dag

namespace RrWorkbench.PathLogging

open RrWorkbench.Data

/-! `calculateSpanningTree`, with the colours of the nodes and the explicit stack
of the source. -/

namespace Dag

def getColor (D : Dag) (x : NodeId) : NodeColor := (D.node x).color

def setColor (D : Dag) (x : NodeId) (color : NodeColor) : Dag :=
  D.modifyNode x fun node => { node with color := color }

def makeEdgeSpanning (D : Dag) (e : EdgeId) : Dag :=
  { D.modifyEdge e fun edge => { edge with isInSpanningTree := true } with
    treeEdges := D.treeEdges ++ [e] }

/-- The edges that one round of the search looks at: first the successors, then
the predecessors, each with the node at its other end. -/
def incidentEdges (D : Dag) (x : NodeId) : List (EdgeId × NodeId) :=
  (D.succEdges x).map (fun e => (e, D.target e)) ++
    (D.predEdges x).map (fun e => (e, D.source e))

def visitEdge (D : Dag) (incident : EdgeId × NodeId) : Dag :=
  -- Ignore split edges
  if D.type incident.1 = .splitedge then D
  else if D.getColor incident.2 ≠ .white then
    (D.setColor incident.2 .white).makeEdgeSpanning incident.1
  else D

def spanningTreeLoop : Nat → Dag → List NodeId → Option Dag
  | _, D, [] => some D
  | 0, _, _ :: _ => none
  | fuel + 1, D, node :: dfsStack =>
      if D.getColor node = .white then
        spanningTreeLoop fuel D dfsStack
      else
        let visited := D.setColor node .white
        spanningTreeLoop fuel
          ((visited.incidentEdges node).foldl visitEdge visited) dfsStack

def collectChordEdges (D : Dag) : Dag :=
  { D with
    chordEdges := D.chordEdges ++ (List.range D.numEdges).filter fun e =>
      (D.edge e).isInSpanningTree = false ∧ D.type e ≠ .splitedge }

def calculateSpanningTree (fuel : Nat) (D : Dag) : Option Dag := do
  let colored := (List.range D.numNodes).foldl (·.setColor · .white) D
  let searched ← spanningTreeLoop fuel colored [D.root]
  some searched.collectChordEdges

structure Untouched (D : Dag) : Prop where
  treeEdges : D.treeEdges = []
  chordEdges : D.chordEdges = []
  isInSpanningTree : ∀ e, e < D.numEdges → (D.edge e).isInSpanningTree = false

/-- What the comment of `calculateSpanningTree` promises. -/
structure SpanningTreeCalculated (D : Dag) : Prop where
  tree : IsSpanningTree D.source D.target D.treeEdges (· < D.numNodes) D.root
  mem_treeEdges : ∀ e ∈ D.treeEdges, e < D.numEdges ∧ D.type e ≠ .splitedge
  isInSpanningTree : ∀ e, e < D.numEdges →
    ((D.edge e).isInSpanningTree = true ↔ e ∈ D.treeEdges)
  chordEdges : D.chordEdges = (List.range D.numEdges).filter fun e =>
    e ∉ D.treeEdges ∧ D.type e ≠ .splitedge

/-! Every node is `WHITE` when the search begins, and `WHITE` is also the mark of
a finished node. -/

def withColors (D : Dag) (color : NodeId → NodeColor) : Dag :=
  { D with node := fun x => { D.node x with color := color x } }

theorem setColor_withColors (D : Dag) (color : NodeId → NodeColor) (x : NodeId)
    (value : NodeColor) :
    (D.withColors color).setColor x value =
      D.withColors (Function.update color x value) := by
  simp only [setColor, modifyNode, withColors]
  congr 1
  funext y
  by_cases hy : y = x
  · subst hy
    simp
  · simp [Function.update_of_ne hy]

theorem foldl_setColor (D : Dag) (value : NodeColor) (nodes : List NodeId)
    (color : NodeId → NodeColor) :
    ∃ color', nodes.foldl (·.setColor · value) (D.withColors color) =
        D.withColors color' ∧
      (∀ x ∈ nodes, color' x = value) ∧
      ∀ x ∉ nodes, color' x = color x := by
  induction nodes generalizing color with
  | nil => exact ⟨color, rfl, by simp, fun _ _ => rfl⟩
  | cons node rest ih =>
      obtain ⟨color', heq, hmem, hnot⟩ := ih (Function.update color node value)
      refine ⟨color', ?_, ?_, ?_⟩
      · rw [List.foldl_cons, setColor_withColors, heq]
      · intro x hx
        by_cases hrest : x ∈ rest
        · exact hmem x hrest
        · have hnode : x = node := by simpa [hrest] using hx
          rw [hnot x hrest, hnode, Function.update_self]
      · intro x hx
        simp only [List.mem_cons, not_or] at hx
        rw [hnot x hx.2, Function.update_of_ne hx.1]

/-- The search pops the root, finds it `WHITE` and stops. -/
theorem spanningTreeLoop_white (D : Dag) {root : NodeId}
    (white : D.getColor root = .white) (fuel : Nat) :
    spanningTreeLoop (fuel + 1) D [root] = some D := by
  rw [spanningTreeLoop, if_pos white, spanningTreeLoop]

/-- No edge gets into the tree, so every edge that is not a split edge becomes a
chord. -/
theorem calculateSpanningTree_eq {D : Dag} (root_lt : D.root < D.numNodes)
    (untouched : D.Untouched) :
    ∃ color, ∀ fuel, calculateSpanningTree (fuel + 1) D =
      some { D.withColors color with
        chordEdges := (List.range D.numEdges).filter
          (D.type · ≠ .splitedge) } := by
  obtain ⟨color, heq, hmem, _⟩ := foldl_setColor D .white
    (List.range D.numNodes) D.getColor
  refine ⟨color, fun fuel => ?_⟩
  have white : (D.withColors color).getColor D.root = .white :=
    hmem D.root (List.mem_range.mpr root_lt)
  have hfold : (List.range D.numNodes).foldl (·.setColor · .white) D =
      D.withColors color := heq
  have hchords : (List.range D.numEdges).filter (fun e =>
        (D.edge e).isInSpanningTree = false ∧ D.type e ≠ .splitedge) =
      (List.range D.numEdges).filter (D.type · ≠ .splitedge) := by
    refine List.filter_congr fun e he => ?_
    simp [untouched.isInSpanningTree e (List.mem_range.mp he)]
  simp only [calculateSpanningTree, hfold, spanningTreeLoop_white _ white]
  refine congrArg some ?_
  unfold collectChordEdges
  congr 1
  exact (congrArg (· ++ _) untouched.chordEdges).trans
    ((List.nil_append _).trans hchords)

/-- The search always ends, and never with a spanning tree: exit is not connected
to the root. -/
theorem calculateSpanningTree_spans_nothing {D : Dag} (shape : D.BallLarus)
    (untouched : D.Untouched) :
    (∀ fuel, (calculateSpanningTree (fuel + 1) D).isSome) ∧
      ∀ fuel result, calculateSpanningTree fuel D = some result →
        ¬ result.SpanningTreeCalculated := by
  obtain ⟨color, heq⟩ := calculateSpanningTree_eq shape.root_lt untouched
  refine ⟨fun fuel => by rw [heq fuel]; rfl, ?_⟩
  intro fuel result hresult calculated
  cases fuel with
  | zero => cases hresult
  | succ fuel =>
      cases (heq fuel).symm.trans hresult
      have spans := calculated.tree.spans D.exit shape.exit_lt
      have htree : D.treeEdges = [] := untouched.treeEdges
      exact not_connected_nil shape.root_ne_exit (htree ▸ spans)

theorem whileLoop_untouched : whileLoop.Untouched :=
  ⟨rfl, rfl, by decide⟩

theorem calculateSpanningTree_spans_nothing_whileLoop :
    (∀ fuel, (calculateSpanningTree (fuel + 1) whileLoop).isSome) ∧
      ∀ fuel result, calculateSpanningTree fuel whileLoop = some result →
        ¬ result.SpanningTreeCalculated :=
  calculateSpanningTree_spans_nothing whileLoop_ballLarus whileLoop_untouched

theorem whileLoop_has_no_spanning_tree :
    ∃ result, calculateSpanningTree 1 whileLoop = some result ∧
      result.treeEdges = [] ∧ ¬ result.SpanningTreeCalculated := by
  obtain ⟨color, heq⟩ := calculateSpanningTree_eq
    whileLoop_ballLarus.root_lt whileLoop_untouched
  refine ⟨_, heq 0, rfl, fun calculated => ?_⟩
  exact not_connected_nil whileLoop_ballLarus.root_ne_exit
    (calculated.tree.spans whileLoop.exit whileLoop_ballLarus.exit_lt)

end Dag

end RrWorkbench.PathLogging
