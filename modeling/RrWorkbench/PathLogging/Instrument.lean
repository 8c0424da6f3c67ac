import RrWorkbench.PathLogging.CalculateSpanningTree
import RrWorkbench.PathLogging.ChordIncrements
import RrWorkbench.PathLogging.PushMarks

namespace RrWorkbench.PathLogging

/-! The emission of `PathProfiler`: critical edges are split, and the increments,
initializations and counter increments that the edges of the DAG are marked with
become instructions of the function. -/

/-- How the emission can stop: a failed assertion, a null pointer that is
followed, or a recursion that did not come to an end. -/
inductive EmitError
  | outOfFuel
  | nullBlock
  | nullPhonyEdge
  | nullPathNumber
  | noExitRootEdge
  /-- "Target already has path number" -/
  | targetHasPathNumber
  /-- "Tried to push value into node with PHI, but node actually had no PHI." -/
  | noPHI
  /-- "Invalid PHI argument to remove!" -/
  | noIncomingValue
  /-- "Top phony edge did not contain a path number initialization." -/
  | topNotInitialization
  /-- "Bottom phony edge did not contain a path counter increment." -/
  | bottomNotCounterIncrement
  /-- "inline counters not supported" -/
  | inlineCounters
  /-- Early termination is not part of the model. -/
  | callEdges
  deriving DecidableEq, Repr

def orError {α : Type} (value : Option α) (error : EmitError) :
    Except EmitError α :=
  match value with
  | some a => .ok a
  | none => .error error

structure Emission where
  dag : Dag
  func : LlvmFunction

/-! Unlinking phony edges. -/

namespace Dag

def unlinkEdge (D : Dag) (e : EdgeId) : Dag :=
  (D.removeSuccEdge (D.source e) e).removePredEdge (D.target e) e

def unlinkPhony (D : Dag) : Dag :=
  (List.range D.numEdges).foldl
    (fun D e => if (D.type e).isPhony then D.unlinkEdge e else D) D

def startingPathNumber (D : Dag) (x : NodeId) : Option Value :=
  (D.node x).startingPathNumber

def endingPathNumber (D : Dag) (x : NodeId) : Option Value :=
  (D.node x).endingPathNumber

def setPathNumbers (D : Dag) (x : NodeId) (starting ending : Option Value) :
    Dag :=
  D.modifyNode x fun node =>
    { node with startingPathNumber := starting, endingPathNumber := ending }

def setHasInstrumentation (D : Dag) (e : EdgeId) : Dag :=
  D.modifyEdge e fun edge => { edge with hasInstrumentation := true }

def splitUpdate (D : Dag) (formerEdge : EdgeId) (newBlock : BlockId) : Dag :=
  let oldTarget := D.target formerEdge
  let former := D.edge formerEdge
  let (D, newNode) := D.addNode newBlock
  let D := D.modifyEdge formerEdge fun edge => { edge with target := newNode }
  let D := D.addPredEdge newNode formerEdge
  let D := D.removePredEdge oldTarget formerEdge
  let (D, newEdge) := D.addEdge newNode oldTarget
  if former.type.isCut then
    let D := D.modifyEdge newEdge fun edge =>
      { edge with
        type := former.type
        phonyRoot := former.phonyRoot
        phonyExit := former.phonyExit }
    D.modifyEdge formerEdge fun edge =>
      { edge with type := .normal, phonyRoot := none, phonyExit := none }
  else D

end Dag

namespace Emission

/-- The position of the first successor of the terminator that is the target of
the edge. -/
def getSuccessorNumber (st : Emission) (e : EdgeId) : Nat :=
  match st.dag.getBlock (st.dag.source e), st.dag.getBlock (st.dag.target e) with
  | some source, some target => (st.func.successors source).idxOf target
  | _, _ => 0

/-- If this edge is a critical edge, then inserts a node at this edge.  `none` is
the result `false`, for the edges of an `indirectbr`. -/
def splitCritical (splitter : SplitCriticalEdge) (st : Emission) (e : EdgeId) :
    Option Emission :=
  let succNum := st.getSuccessorNumber e
  match st.dag.getBlock (st.dag.source e), st.dag.getBlock (st.dag.target e) with
  | some sourceBlock, some _ =>
      if st.dag.getNumberSuccEdges (st.dag.source e) ≤ 1 ∨
          st.dag.getNumberPredEdges (st.dag.target e) = 1 then
        some st
      else if (st.func.block sourceBlock).terminator = .indirectbr then
        none
      else
        match splitter.split st.func sourceBlock succNum with
        | some func =>
            match (func.successors sourceBlock)[succNum]? with
            | some newBlock =>
                some { dag := st.dag.splitUpdate e newBlock, func := func }
            | none => some { st with func := func }
        | none => some st
  | _, _ => some st

/-- A PHINode is created in the node, and its values initialized to -1U. -/
def preparePHI (st : Emission) (node : NodeId) : Except EmitError Emission := do
  let block ← orError (st.dag.getBlock node) .nullBlock
  let phi := Value.phi block
  .ok {
    dag := st.dag.modifyNode node fun node =>
      { node with
        pathPHI := some block
        startingPathNumber := some phi
        endingPathNumber := some phi }
    func := st.func.modifyBlock block fun code =>
      { code with
        pathPHI := some ((st.func.predecessors block).map
          fun pred => (.const (createIncrementConstant (-1)), pred)) } }

def pushValueIntoPHI (st : Emission) (target source : NodeId) :
    Except EmitError Emission := do
  let phi ← orError (st.dag.node target).pathPHI .noPHI
  let entries ← orError (st.func.block phi).pathPHI .noPHI
  let sourceBlock ← orError (st.dag.getBlock source) .nullBlock
  let removed ← orError (Incoming.remove entries sourceBlock) .noIncomingValue
  let value ← orError (st.dag.endingPathNumber source) .nullPathNumber
  .ok { st with
    func := st.func.modifyBlock phi fun code =>
      { code with pathPHI := some (removed ++ [(value, sourceBlock)]) } }

def pushValueIntoNode (st : Emission) (source target : NodeId) :
    Except EmitError Emission :=
  if st.dag.getBlock target = none then .ok st
  else if st.dag.getNumberPredEdges target ≤ 1 then
    if st.dag.startingPathNumber target ≠ none then .error .targetHasPathNumber
    else
      let ending := st.dag.endingPathNumber source
      .ok { st with dag := st.dag.setPathNumbers target ending ending }
  else do
    let st ←
      if (st.dag.node target).pathPHI = none then st.preparePHI target
      else .ok st
    st.pushValueIntoPHI target source

end Emission

/-! Instrumentation of one edge.  A `Cursor` holds the path numbers of the node
that receives the instructions, those inserted at the insertion point and those
inserted before the terminator. -/

structure Cursor where
  starting : Option Value
  ending : Option Value
  nextInst : Nat
  code : List Inst := []
  late : List Inst := []

def hashThreshhold : Nat := 0

namespace Cursor

/-- `BinaryOperator::Create(Instruction::Add, ...)` on the starting path number; the
sum becomes the ending one. -/
def add (cursor : Cursor) (increment : Int) : Except EmitError Cursor := do
  let value ← orError cursor.starting .nullPathNumber
  .ok { cursor with
    ending := some (.add cursor.nextInst)
    nextInst := cursor.nextInst + 1
    code := cursor.code ++
      [.add cursor.nextInst value (createIncrementConstant increment)] }

def counterIncrement (cursor : Cursor) (numberOfPaths : Nat) :
    Except EmitError Inst :=
  if numberOfPaths ≤ hashThreshhold then .error .inlineCounters
  else do
    let value ← orError cursor.ending .nullPathNumber
    .ok (.incrementPathCount value)

/-- A split edge that has yet to be initialized starts from 0. -/
def initialized (cursor : Cursor) : Cursor :=
  let zero := Value.const (createIncrementConstant 0)
  if cursor.ending = none then
    { cursor with starting := some zero, ending := some zero }
  else cursor

def addBottom (cursor : Cursor) (bottom : Edge) : Except EmitError Cursor :=
  if bottom.increment ≠ 0 then cursor.add bottom.increment else .ok cursor

/-- The first half of a back or split edge: what the bottom edge adds, and the call
that counts the path. -/
def endPath (cursor : Cursor) (numberOfPaths : Nat) (bottom : Edge) :
    Except EmitError Cursor := do
  let cursor ← cursor.initialized.addBottom bottom
  let call ← cursor.counterIncrement numberOfPaths
  .ok { cursor with code := cursor.code ++ [call] }

/-- The second half: the path number that the top edge starts with, and a call if it
also ends that path. -/
def beginPath (cursor : Cursor) (numberOfPaths : Nat) (top : Edge)
    (atBeginning : Bool) : Except EmitError Cursor := do
  let number := Value.const (createIncrementConstant top.increment)
  let cursor := { cursor with
    starting := if atBeginning then some number else cursor.starting
    ending := some number }
  if top.isCounterIncrement then do
    let call ← cursor.counterIncrement numberOfPaths
    .ok { cursor with late := cursor.late ++ [call], ending := none }
  else .ok cursor

def instrumentCutEdge (cursor : Cursor) (numberOfPaths : Nat)
    (top bottom : Edge) (atBeginning : Bool) : Except EmitError Cursor :=
  if top.isInitialization = false then .error .topNotInitialization
  else if bottom.isCounterIncrement = false then
    .error .bottomNotCounterIncrement
  else do
    let cursor ← cursor.endPath numberOfPaths bottom
    cursor.beginPath numberOfPaths top atBeginning

def updateNumber (cursor : Cursor) (edge : Edge) (atBeginning : Bool) :
    Except EmitError Cursor :=
  if edge.isInitialization then -- initialize path number
    .ok { cursor with
      ending := some (.const (createIncrementConstant edge.increment)) }
  else if edge.increment ≠ 0 then do -- increment path number
    let cursor ← cursor.add edge.increment
    .ok { cursor with
      starting := if atBeginning then cursor.ending else cursor.starting }
  else .ok cursor

def instrumentNormalEdge (cursor : Cursor) (numberOfPaths : Nat) (edge : Edge)
    (atBeginning : Bool) : Except EmitError Cursor := do
  let cursor ← cursor.updateNumber edge atBeginning
  if edge.isCounterIncrement then do
    let call ← cursor.counterIncrement numberOfPaths
    .ok { cursor with code := cursor.code ++ [call], ending := none }
  else .ok cursor

end Cursor

namespace Emission

def cursorAt (st : Emission) (node : NodeId) : Cursor where
  starting := st.dag.startingPathNumber node
  ending := st.dag.endingPathNumber node
  nextInst := st.func.nextInst

def insertAt (st : Emission) (node : NodeId) (block : BlockId)
    (atBeginning : Bool) (cursor : Cursor) : Emission where
  dag := st.dag.setPathNumbers node cursor.starting cursor.ending
  func :=
    { st.func.modifyBlock block fun body =>
        if atBeginning then
          { body with
            front := cursor.code ++ body.front
            back := body.back ++ cursor.late }
        else { body with back := body.back ++ cursor.code ++ cursor.late } with
      nextInst := cursor.nextInst }

def instrumentCursor (D : Dag) (e : EdgeId) (cursor : Cursor)
    (atBeginning : Bool) : Except EmitError Cursor :=
  if (D.type e).isCut then do
    let top ← orError (D.edge e).phonyRoot .nullPhonyEdge
    let bottom ← orError (D.edge e).phonyExit .nullPhonyEdge
    cursor.instrumentCutEdge D.numberOfPaths (D.edge top) (D.edge bottom)
      atBeginning
  else cursor.instrumentNormalEdge D.numberOfPaths (D.edge e) atBeginning

/-- The two middle parts of `insertInstrumentationStartingAt`, for the edge and the
node it puts instructions into. -/
def instrumentEdge (st : Emission) (e : EdgeId) (instrumentNode : NodeId)
    (atBeginning : Bool) : Except EmitError Emission := do
  let block ← orError (st.dag.getBlock instrumentNode) .nullBlock
  let cursor ← instrumentCursor st.dag e (st.cursorAt instrumentNode) atBeginning
  .ok (st.insertAt instrumentNode block atBeginning cursor)

def instrumentSource (st : Emission) (e : EdgeId) (sourceNode targetNode : NodeId) :
    Except EmitError Emission := do
  let st ← st.instrumentEdge e sourceNode false
  if st.dag.endingPathNumber sourceNode ≠ none then
    st.pushValueIntoNode sourceNode targetNode
  else .ok st

def instrumentTarget (st : Emission) (e : EdgeId) (sourceNode targetNode : NodeId) :
    Except EmitError Emission := do
  let st ← st.pushValueIntoNode sourceNode targetNode
  st.instrumentEdge e targetNode true

/-- The choice of the node that receives the instructions of an edge; `none` is the
early return of an edge that could not be split. -/
def instrumentNode (st : Emission) (e : EdgeId) :
    Except EmitError (Emission × Option NodeId) :=
  let sourceNode := st.dag.source e
  let targetNode := st.dag.target e
  if st.dag.getBlock sourceNode ≠ none ∧
      st.dag.getNumberSuccEdges sourceNode ≤ 1 then do
    let st ← st.instrumentSource e sourceNode targetNode
    .ok (st, some targetNode)
  else if st.dag.getNumberPredEdges targetNode = 1 then do
    let st ← st.instrumentTarget e sourceNode targetNode
    .ok (st, some targetNode)
  else .ok (st, none)

/-- The work on one edge before the recursion; `none` is an early return. -/
def instrument (splitter : SplitCriticalEdge) (st : Emission) (e : EdgeId) :
    Except EmitError (Emission × Option NodeId) :=
  let marked := { st with dag := st.dag.setHasInstrumentation e }
  match marked.splitCritical splitter e with
  | none => .ok (marked, none)
  | some st => st.instrumentNode e

def insertInstrumentationStartingAt (splitter : SplitCriticalEdge) :
    Nat → Emission → EdgeId → Except EmitError Emission
  | 0, _, _ => .error .outOfFuel
  | fuel + 1, st, e => do
      let (st, reached) ← st.instrument splitter e
      match reached with
      | none => .ok st
      | some targetNode =>
          (st.dag.succEdges targetNode).foldlM
            (fun st next =>
              if (st.dag.edge next).hasInstrumentation then .ok st
              else insertInstrumentationStartingAt splitter fuel st next)
            st

def insertInstrumentation (splitter : SplitCriticalEdge) (fuel : Nat)
    (st : Emission) : Except EmitError Emission := do
  let exitRootEdge ← orError st.dag.getExitRootEdge .noExitRootEdge
  let st ← insertInstrumentationStartingAt splitter fuel st exitRootEdge
  if st.dag.getCallPhonyEdges = [] then .ok st else .error .callEdges

end Emission

/-- `runOnFunction` from the DAG with path numbers on: the passes that place the
marks, and the emission. -/
def runOnFunction (splitter : SplitCriticalEdge) (fuel : Nat) (D : Dag)
    (F : LlvmFunction) : Except EmitError LlvmFunction := do
  let D ← orError (D.calculateSpanningTree fuel) .outOfFuel
  let D ← orError (D.calculateChordIncrements fuel) .outOfFuel
  let D ← orError (D.pushInitialization fuel) .outOfFuel
  let D ← orError (D.pushCounters fuel) .outOfFuel
  let st ← Emission.insertInstrumentation splitter fuel
    { dag := D.unlinkPhony, func := F }
  .ok st.func

end RrWorkbench.PathLogging
