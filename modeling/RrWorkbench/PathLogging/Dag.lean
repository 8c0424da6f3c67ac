import RrWorkbench.Data.EdgePath
import RrWorkbench.PathLogging.LlvmFunction

namespace RrWorkbench.PathLogging

open RrWorkbench.Data

/-! The Ball-Larus DAG: the nodes and edges of LLVM's `BallLarusDag` with the
members that `BLInstrumentationNode`, `BLInstrumentationEdge` and
`BLInstrumentationDag` add.  Pointers to nodes and edges are numbers in order of
creation. -/

abbrev NodeId := Nat

abbrev EdgeId := Nat

inductive EdgeType
  | normal
  | backedge
  | splitedge
  | backedgePhony
  | splitedgePhony
  | calledgePhony
  deriving DecidableEq, Repr

def EdgeType.isPhony : EdgeType → Bool
  | .backedgePhony | .splitedgePhony | .calledgePhony => true
  | _ => false

/-- The types at which a path is cut. -/
def EdgeType.isCut : EdgeType → Bool
  | .backedge | .splitedge => true
  | _ => false

theorem EdgeType.isCut_of_isPhony {type : EdgeType} (hphony : type.isPhony = true) :
    type.isCut = false := by
  cases type <;> first | rfl | contradiction

inductive NodeColor
  | white
  | gray
  | black
  deriving DecidableEq, Repr

structure Node where
  block : Option BlockId
  color : NodeColor := .white
  predEdges : List EdgeId := []
  succEdges : List EdgeId := []
  startingPathNumber : Option Value := none
  endingPathNumber : Option Value := none
  /-- The block of the PHI that `preparePHI` created for the node. -/
  pathPHI : Option BlockId := none

structure Edge where
  source : NodeId
  target : NodeId
  type : EdgeType := .normal
  weight : Int := 0
  phonyRoot : Option EdgeId := none
  phonyExit : Option EdgeId := none
  increment : Int := 0
  isInSpanningTree : Bool := false
  isInitialization : Bool := false
  isCounterIncrement : Bool := false
  hasInstrumentation : Bool := false

/-- `_nodes` and `_edges` are the numbers below `numNodes` and `numEdges`. -/
structure Dag where
  node : NodeId → Node
  edge : EdgeId → Edge
  numNodes : Nat
  numEdges : Nat
  root : NodeId
  exit : NodeId
  numberOfPaths : Nat
  treeEdges : List EdgeId := []
  chordEdges : List EdgeId := []

namespace Dag

def modifyNode (D : Dag) (x : NodeId) (change : Node → Node) : Dag :=
  { D with node := Function.update D.node x (change (D.node x)) }

def modifyEdge (D : Dag) (e : EdgeId) (change : Edge → Edge) : Dag :=
  { D with edge := Function.update D.edge e (change (D.edge e)) }

def source (D : Dag) (e : EdgeId) : NodeId := (D.edge e).source

def target (D : Dag) (e : EdgeId) : NodeId := (D.edge e).target

def type (D : Dag) (e : EdgeId) : EdgeType := (D.edge e).type

def weight (D : Dag) (e : EdgeId) : Int := (D.edge e).weight

def increment (D : Dag) (e : EdgeId) : Int := (D.edge e).increment

def succEdges (D : Dag) (x : NodeId) : List EdgeId := (D.node x).succEdges

def predEdges (D : Dag) (x : NodeId) : List EdgeId := (D.node x).predEdges

def getBlock (D : Dag) (x : NodeId) : Option BlockId := (D.node x).block

def getNumberSuccEdges (D : Dag) (x : NodeId) : Nat := (D.succEdges x).length

def getNumberPredEdges (D : Dag) (x : NodeId) : Nat := (D.predEdges x).length

/-- `*getExit()->succBegin()`. -/
def getExitRootEdge (D : Dag) : Option EdgeId := (D.succEdges D.exit).head?

def getCallPhonyEdges (D : Dag) : List EdgeId :=
  (List.range D.numEdges).filter fun e => D.type e = .calledgePhony

def addNode (D : Dag) (block : BlockId) : Dag × NodeId :=
  ({ D with
      node := Function.update D.node D.numNodes { block := some block }
      numNodes := D.numNodes + 1 }, D.numNodes)

def addPredEdge (D : Dag) (x : NodeId) (e : EdgeId) : Dag :=
  D.modifyNode x fun node => { node with predEdges := node.predEdges ++ [e] }

def addSuccEdge (D : Dag) (x : NodeId) (e : EdgeId) : Dag :=
  D.modifyNode x fun node => { node with succEdges := node.succEdges ++ [e] }

def removePredEdge (D : Dag) (x : NodeId) (e : EdgeId) : Dag :=
  D.modifyNode x fun node => { node with predEdges := node.predEdges.erase e }

def removeSuccEdge (D : Dag) (x : NodeId) (e : EdgeId) : Dag :=
  D.modifyNode x fun node => { node with succEdges := node.succEdges.erase e }

def addEdge (D : Dag) (source target : NodeId) : Dag × EdgeId :=
  let created : Dag :=
    { D with
      edge := Function.update D.edge D.numEdges
        { source := source, target := target }
      numEdges := D.numEdges + 1 }
  ((created.addSuccEdge source D.numEdges).addPredEdge target D.numEdges,
    D.numEdges)

/-- An edge that stays in the DAG of a path: neither a back edge nor a split
edge, and not the edge that closes the cycle from exit to root. -/
def IsDagEdge (D : Dag) (e : EdgeId) : Prop :=
  e < D.numEdges ∧ (D.type e).isCut = false ∧ D.source e ≠ D.exit

def IsRealEdge (D : Dag) (e : EdgeId) : Prop :=
  e < D.numEdges ∧ (D.type e).isPhony = false ∧ D.source e ≠ D.exit

instance (D : Dag) : DecidablePred D.IsDagEdge :=
  fun e => inferInstanceAs (Decidable (e < D.numEdges ∧ _ ∧ _))

instance (D : Dag) : DecidablePred D.IsRealEdge :=
  fun e => inferInstanceAs (Decidable (e < D.numEdges ∧ _ ∧ _))

abbrev Path (D : Dag) (allowed : EdgeId → Prop) :
    NodeId → List EdgeId → NodeId → Prop :=
  EdgePath D.source D.target allowed

abbrev RootExitPath (D : Dag) (path : List EdgeId) : Prop :=
  D.Path D.IsDagEdge D.root path D.exit

/-- Documented shape of the DAG that LLVM's `BallLarusDag::init` and
`calculatePathNumbers` build, with every phony edge still linked. -/
structure BallLarus (D : Dag) : Prop where
  root_lt : D.root < D.numNodes
  exit_lt : D.exit < D.numNodes
  root_ne_exit : D.root ≠ D.exit
  source_lt : ∀ e, e < D.numEdges → D.source e < D.numNodes
  target_lt : ∀ e, e < D.numEdges → D.target e < D.numNodes
  mem_succEdges : ∀ x e,
    e ∈ D.succEdges x ↔ e < D.numEdges ∧ D.source e = x
  mem_predEdges : ∀ x e,
    e ∈ D.predEdges x ↔ e < D.numEdges ∧ D.target e = x
  nodup_succEdges : ∀ x, (D.succEdges x).Nodup
  nodup_predEdges : ∀ x, (D.predEdges x).Nodup
  /-- The final edge of `init`, the only one out of exit and into root. -/
  exitRoot : ∃ e, D.succEdges D.exit = [e] ∧ D.predEdges D.root = [e] ∧
    D.type e = .normal
  /-- Back and split edges join blocks and are accompanied by two phony edges. -/
  cut_target : ∀ e, e < D.numEdges → (D.type e).isCut = true →
    D.target e ≠ D.exit
  phonyRoot : ∀ e, e < D.numEdges → (D.type e).isCut = true →
    ∃ r, (D.edge e).phonyRoot = some r ∧ r < D.numEdges ∧
      (D.type r).isPhony = true ∧ D.source r = D.root ∧ D.target r = D.target e
  phonyExit : ∀ e, e < D.numEdges → (D.type e).isCut = true →
    ∃ q, (D.edge e).phonyExit = some q ∧ q < D.numEdges ∧
      (D.type q).isPhony = true ∧ D.source q = D.source e ∧ D.target q = D.exit
  /-- A phony edge that does not end at exit is the phony root of such an edge. -/
  phony_target : ∀ r, r < D.numEdges → (D.type r).isPhony = true →
    D.target r ≠ D.exit →
    ∃ e, e < D.numEdges ∧ (D.type e).isCut = true ∧
      (D.edge e).phonyRoot = some r
  no_callPhony : ∀ e, e < D.numEdges → D.type e ≠ .calledgePhony
  /-- Cutting the back edges leaves no directed cycle. -/
  acyclic : ∃ rank : NodeId → Nat, ∀ e, D.IsDagEdge e →
    rank (D.target e) < rank (D.source e)
  /-- Every block is reachable.  The exit of a function that never returns has only
  phony edges. -/
  from_root : ∀ x, x < D.numNodes → x ≠ D.exit →
    ∃ path, D.Path D.IsRealEdge D.root path x
  to_exit : ∀ x, x < D.numNodes → ∃ path, D.Path D.IsDagEdge x path D.exit
  /-- The target of a back edge is an ancestor of its source. -/
  backedge_loop : ∀ e, e < D.numEdges → D.type e = .backedge →
    ∃ path, D.Path D.IsRealEdge (D.target e) path (D.source e)
  numberOfPaths_pos : 0 < D.numberOfPaths

variable {D : Dag}

theorem modifyEdge_edge_self (e : EdgeId) (change : Edge → Edge) :
    (D.modifyEdge e change).edge e = change (D.edge e) := by
  simp [modifyEdge]

theorem modifyEdge_edge_of_ne {e other : EdgeId} (change : Edge → Edge)
    (hne : other ≠ e) : (D.modifyEdge e change).edge other = D.edge other := by
  simp [modifyEdge, hne]

theorem modifyNode_node_self (x : NodeId) (change : Node → Node) :
    (D.modifyNode x change).node x = change (D.node x) := by
  simp [modifyNode]

theorem modifyNode_node_of_ne {x other : NodeId} (change : Node → Node)
    (hne : other ≠ x) : (D.modifyNode x change).node other = D.node other := by
  simp [modifyNode, hne]

/-! Consequences of the shape of a Ball-Larus DAG. -/

theorem two_le_length_of_mem {α : Type} {items : List α} {first second : α}
    (hfirst : first ∈ items) (hsecond : second ∈ items)
    (hne : first ≠ second) : 2 ≤ items.length := by
  match items, hfirst, hsecond with
  | [only], hfirst, hsecond =>
      rw [List.mem_singleton] at hfirst hsecond
      exact absurd (hfirst.trans hsecond.symm) hne
  | _ :: _ :: _, _, _ => simp

theorem eq_of_mem_of_length_le_one {α : Type} {items : List α}
    {first second : α} (hlength : items.length ≤ 1)
    (hfirst : first ∈ items) (hsecond : second ∈ items) : first = second := by
  by_contra hne
  have := two_le_length_of_mem hfirst hsecond hne
  omega

theorem IsDagEdge.ne_splitedge {e : EdgeId} (he : D.IsDagEdge e) :
    D.type e ≠ .splitedge := by
  intro htype
  have := he.2.1
  rw [htype] at this
  contradiction

structure IsExitRootEdge (D : Dag) (e : EdgeId) : Prop where
  lt : e < D.numEdges
  head : D.getExitRootEdge = some e
  source : D.source e = D.exit
  target : D.target e = D.root
  normal : D.type e = .normal
  of_source : ∀ f, f < D.numEdges → D.source f = D.exit → f = e
  of_target : ∀ f, f < D.numEdges → D.target f = D.root → f = e

namespace BallLarus

theorem exists_exitRootEdge (shape : D.BallLarus) :
    ∃ e, D.IsExitRootEdge e := by
  obtain ⟨e, hsucc, hpred, hnormal⟩ := shape.exitRoot
  have hmem : e ∈ D.succEdges D.exit := by simp [hsucc]
  have hmem' : e ∈ D.predEdges D.root := by simp [hpred]
  refine ⟨e, {
    lt := ((shape.mem_succEdges _ _).mp hmem).1
    head := by simp [getExitRootEdge, hsucc]
    source := ((shape.mem_succEdges _ _).mp hmem).2
    target := ((shape.mem_predEdges _ _).mp hmem').2
    normal := hnormal
    of_source := ?_
    of_target := ?_ }⟩
  · intro f hf hsource
    have : f ∈ D.succEdges D.exit := (shape.mem_succEdges _ _).mpr ⟨hf, hsource⟩
    simpa [hsucc] using this
  · intro f hf htarget
    have : f ∈ D.predEdges D.root := (shape.mem_predEdges _ _).mpr ⟨hf, htarget⟩
    simpa [hpred] using this

theorem isPhony_ne_isCut {e r : EdgeId} (hcut : (D.type e).isCut = true)
    (hphony : (D.type r).isPhony = true) : e ≠ r := by
  rintro rfl
  cases htype : D.type e <;>
    simp [htype, EdgeType.isCut, EdgeType.isPhony] at hcut hphony

/-- The target of a back or split edge has its phony root edge as a second
predecessor. -/
theorem two_le_pred_of_cut (shape : D.BallLarus) {e : EdgeId}
    (he : e < D.numEdges) (hcut : (D.type e).isCut = true) :
    1 < D.getNumberPredEdges (D.target e) := by
  obtain ⟨r, _, hr, hphony, _, htarget⟩ := shape.phonyRoot e he hcut
  exact two_le_length_of_mem
    ((shape.mem_predEdges _ _).mpr ⟨he, rfl⟩)
    ((shape.mem_predEdges _ _).mpr ⟨hr, htarget⟩)
    (isPhony_ne_isCut hcut hphony)

/-- The source of a back or split edge has its phony exit edge as a second
successor. -/
theorem two_le_succ_of_cut (shape : D.BallLarus) {e : EdgeId}
    (he : e < D.numEdges) (hcut : (D.type e).isCut = true) :
    1 < D.getNumberSuccEdges (D.source e) := by
  obtain ⟨q, _, hq, hphony, hsource, _⟩ := shape.phonyExit e he hcut
  exact two_le_length_of_mem
    ((shape.mem_succEdges _ _).mpr ⟨he, rfl⟩)
    ((shape.mem_succEdges _ _).mpr ⟨hq, hsource⟩)
    (isPhony_ne_isCut hcut hphony)

theorem pred_unique (shape : D.BallLarus) {e f : EdgeId} {x : NodeId}
    (hlength : ¬ 1 < D.getNumberPredEdges x)
    (he : e < D.numEdges) (hf : f < D.numEdges)
    (htarget : D.target e = x) (htarget' : D.target f = x) : e = f :=
  eq_of_mem_of_length_le_one (Nat.not_lt.mp hlength)
    ((shape.mem_predEdges _ _).mpr ⟨he, htarget⟩)
    ((shape.mem_predEdges _ _).mpr ⟨hf, htarget'⟩)

theorem succ_unique (shape : D.BallLarus) {e f : EdgeId} {x : NodeId}
    (hlength : ¬ 1 < D.getNumberSuccEdges x)
    (he : e < D.numEdges) (hf : f < D.numEdges)
    (hsource : D.source e = x) (hsource' : D.source f = x) : e = f :=
  eq_of_mem_of_length_le_one (Nat.not_lt.mp hlength)
    ((shape.mem_succEdges _ _).mpr ⟨he, hsource⟩)
    ((shape.mem_succEdges _ _).mpr ⟨hf, hsource'⟩)

end BallLarus

/-! DAGs given by the list of their edges. -/

def ofEdges (blocks : List (Option BlockId)) (edges : List Edge)
    (root exit : NodeId) (numberOfPaths : Nat) : Dag where
  node x :=
    { block := (blocks[x]?).join
      predEdges := (List.range edges.length).filter
        fun e => (edges[e]?).map (·.target) = some x
      succEdges := (List.range edges.length).filter
        fun e => (edges[e]?).map (·.source) = some x }
  edge e := (edges[e]?).getD { source := exit, target := root }
  numNodes := blocks.length
  numEdges := edges.length
  root := root
  exit := exit
  numberOfPaths := numberOfPaths

section OfEdges

variable {blocks : List (Option BlockId)} {edges : List Edge}
  {root exit : NodeId} {numberOfPaths : Nat}

theorem mem_succEdges_ofEdges (x : NodeId) (e : EdgeId) :
    e ∈ (ofEdges blocks edges root exit numberOfPaths).succEdges x ↔
      e < (ofEdges blocks edges root exit numberOfPaths).numEdges ∧
        (ofEdges blocks edges root exit numberOfPaths).source e = x := by
  simp only [succEdges, source, ofEdges, List.mem_filter, List.mem_range,
    decide_eq_true_eq]
  refine and_congr_right fun he => ?_
  simp [List.getElem?_eq_getElem he]

theorem mem_predEdges_ofEdges (x : NodeId) (e : EdgeId) :
    e ∈ (ofEdges blocks edges root exit numberOfPaths).predEdges x ↔
      e < (ofEdges blocks edges root exit numberOfPaths).numEdges ∧
        (ofEdges blocks edges root exit numberOfPaths).target e = x := by
  simp only [predEdges, target, ofEdges, List.mem_filter, List.mem_range,
    decide_eq_true_eq]
  refine and_congr_right fun he => ?_
  simp [List.getElem?_eq_getElem he]

theorem nodup_succEdges_ofEdges (x : NodeId) :
    ((ofEdges blocks edges root exit numberOfPaths).succEdges x).Nodup :=
  List.nodup_range.filter _

theorem nodup_predEdges_ofEdges (x : NodeId) :
    ((ofEdges blocks edges root exit numberOfPaths).predEdges x).Nodup :=
  List.nodup_range.filter _

end OfEdges

/-- The DAG of a `while` loop: entry, exit, loop header, loop body and return
block, with the back edge from the body and its two phony edges. -/
def whileLoop : Dag :=
  ofEdges [some 0, none, some 1, some 2, some 3]
    [ { source := 0, target := 2 },
      { source := 2, target := 3 },
      { source := 2, target := 4, weight := 1 },
      { source := 3, target := 2, type := .backedge,
        phonyRoot := some 6, phonyExit := some 7 },
      { source := 4, target := 1 },
      { source := 1, target := 0 },
      { source := 0, target := 2, type := .backedgePhony, weight := 2 },
      { source := 3, target := 1, type := .backedgePhony } ]
    0 1 4

theorem whileLoop_ballLarus : whileLoop.BallLarus where
  root_lt := by decide
  exit_lt := by decide
  root_ne_exit := by decide
  source_lt := by decide
  target_lt := by decide
  mem_succEdges := mem_succEdges_ofEdges
  mem_predEdges := mem_predEdges_ofEdges
  nodup_succEdges := nodup_succEdges_ofEdges
  nodup_predEdges := nodup_predEdges_ofEdges
  exitRoot := ⟨5, by decide⟩
  cut_target := by decide
  phonyRoot := by
    intro e he hcut
    have : e = 3 := by revert e; decide
    exact ⟨6, by subst this; decide⟩
  phonyExit := by
    intro e he hcut
    have : e = 3 := by revert e; decide
    exact ⟨7, by subst this; decide⟩
  phony_target := by
    intro r hr hphony hexit
    have : r = 6 := by revert r; decide
    exact ⟨3, by subst this; decide⟩
  no_callPhony := by decide
  acyclic := ⟨fun x => [3, 0, 2, 1, 1].getD x 0, by
    rintro e ⟨he, hcut, hexit⟩
    revert e
    decide⟩
  from_root := by
    intro x hx _
    refine ⟨[[], [0, 2, 4], [0], [0, 1], [0, 2]].getD x [], ?_⟩
    revert x
    decide
  to_exit := by
    intro x hx
    refine ⟨[[0, 2, 4], [], [2, 4], [7], [4]].getD x [], ?_⟩
    revert x
    decide
  backedge_loop := by
    intro e he hback
    have : e = 3 := by revert e; decide
    exact ⟨[1], by subst this; decide⟩
  numberOfPaths_pos := by decide

end Dag

end RrWorkbench.PathLogging
