import RrWorkbench.Data.Run
import RrWorkbench.PathLogging.Decode
import RrWorkbench.PathRuntime.Buffer

namespace RrWorkbench.PathProgram

open RrWorkbench.Data
open RrWorkbench.PathLogging
open RrWorkbench.PathRuntime

/-! Reading the log of one thread.  Functions call each other while they log, and a
function may be on the stack more than once; still the records say which walk each of
them belongs to. -/

/-- The walks that have begun and not ended, the innermost first, with the edges they
have gone over; and those that have ended, with the successors they have taken. -/
structure Reading where
  opened : List (Address × List EdgeId) := []
  completed : List (Address × List Nat) := []
  deriving DecidableEq, Repr

namespace Reading

/-- The edges before a segment of a walk through `fn`, and the walks around it. -/
def resume (fn : Address) :
    Bool → List (Address × List EdgeId) →
      Option (List EdgeId × List (Address × List EdgeId))
  | false, opened => some ([], opened)
  | true, [] => none
  | true, walk :: below => if walk.1 = fn then some (walk.2, below) else none

def read (dagOf : Address → Option Dag) (reading : Reading) (record : PathRecord) :
    Option Reading := do
  let D ← dagOf record.fn
  let segment ← D.segmentOfNumber record.path
  let around ← resume record.fn (D.continues segment) reading.opened
  let edges := around.1 ++ segment.filterMap D.realEdge
  if D.suspends segment then
    some { reading with opened := (record.fn, edges) :: around.2 }
  else
    some
      { opened := around.2
        completed := reading.completed ++ [(record.fn, D.choicesOf edges)] }

end Reading

def readLog (dagOf : Address → Option Dag) (log : List PathRecord) : Option Reading :=
  run (Reading.read dagOf) {} log

theorem readLog_append (dagOf : Address → Option Dag) {log more : List PathRecord}
    {reading reading' : Reading} (hlog : readLog dagOf log = some reading)
    (hmore : run (Reading.read dagOf) reading more = some reading') :
    readLog dagOf (log ++ more) = some reading' :=
  run_append.mpr ⟨reading, hlog, hmore⟩

/-- A call of an instrumented function: the successors that it takes, the numbers that it
has yet to log, and whether it has logged any. -/
structure Activation where
  fn : Address
  choices : List Nat
  pending : List (BitVec 32)
  started : Bool
  deriving DecidableEq, Repr

def Activation.midway (a : Activation) : Bool := a.started && !a.pending.isEmpty

def Readable (D : Dag) : Prop :=
  ∀ segment, D.RootExitPath segment →
    D.segmentOfNumber (BitVec.ofInt 32 (D.pathNumber segment)) = some segment

/-- What the reader has of an activation: nothing before its first and after its last
record, the edges of the segments so far in between. -/
inductive Waits (dagOf : Address → Option Dag) (a : Activation) :
    List (Address × List EdgeId) → Prop
  | fresh {D : Dag} {todo : List (List EdgeId)} (dag : dagOf a.fn = some D)
      (pieces : D.Pieces false todo)
      (pending : a.pending = todo.map fun s => BitVec.ofInt 32 (D.pathNumber s))
      (walk : D.choicesOf (todo.flatMap (·.filterMap D.realEdge)) = a.choices) :
      Waits dagOf a []
  | begun {D : Dag} {todo : List (List EdgeId)} (edges : List EdgeId)
      (started : a.started = true) (dag : dagOf a.fn = some D) (pieces : D.Pieces true todo)
      (pending : a.pending = todo.map fun s => BitVec.ofInt 32 (D.pathNumber s))
      (walk : D.choicesOf (edges ++ todo.flatMap (·.filterMap D.realEdge)) =
        a.choices) :
      Waits dagOf a [(a.fn, edges)]
  | done (pending : a.pending = []) : Waits dagOf a []

inductive Opened (dagOf : Address → Option Dag) :
    List Activation → List (Address × List EdgeId) → Prop
  | nil : Opened dagOf [] []
  | cons {a : Activation} {stack : List Activation}
      {part opened : List (Address × List EdgeId)} (head : Waits dagOf a part)
      (tail : Opened dagOf stack opened) : Opened dagOf (a :: stack) (part ++ opened)

section Read

variable {dagOf : Address → Option Dag} {a : Activation} {number : BitVec 32}
  {rest : List (BitVec 32)}

/-- The reader on the next record of a walk whose edges so far are `earlier`. -/
theorem Reading.read_pieces {D : Dag} (readable : Readable D)
    (dag : dagOf a.fn = some D) {arrives : Bool} {todo : List (List EdgeId)}
    (pieces : D.Pieces arrives todo)
    (pending : number :: rest = todo.map fun s => BitVec.ofInt 32 (D.pathNumber s))
    {earlier : List EdgeId} {opened below : List (Address × List EdgeId)}
    (hresume : resume a.fn arrives opened = some (earlier, below))
    (walk : D.choicesOf (earlier ++ todo.flatMap (·.filterMap D.realEdge)) = a.choices)
    (completed : List (Address × List Nat)) :
    ∃ part, read dagOf ⟨opened, completed⟩ ⟨a.fn, number⟩ =
        some ⟨part ++ below,
          completed ++ if rest = [] then [(a.fn, a.choices)] else []⟩ ∧
      Waits dagOf { a with pending := rest, started := true } part := by
  cases pieces with
  | @last _ segment path hcontinues hsuspends =>
      cases pending
      refine ⟨[], ?_, .done rfl⟩
      simp only [List.flatMap_singleton] at walk
      simp [read, dag, readable segment path, hcontinues, hsuspends, hresume, walk]
  | @cons _ segment remaining path hcontinues hsuspends tail =>
      obtain ⟨rfl, rfl⟩ := List.cons.inj pending
      have hmore : remaining ≠ [] := by
        rintro rfl
        cases tail
      refine ⟨[(a.fn, earlier ++ segment.filterMap D.realEdge)], ?_,
        .begun _ rfl dag tail rfl ?_⟩
      · simp [read, dag, readable segment path, hcontinues, hsuspends, hresume, hmore]
      · rw [List.flatMap_cons] at walk
        rw [List.append_assoc, walk]

/-- The reader follows an activation from record to record. -/
theorem Waits.read (readable : ∀ fn D, dagOf fn = some D → Readable D)
    {part : List (Address × List EdgeId)} (waits : Waits dagOf a part)
    (hpending : a.pending = number :: rest) (opened : List (Address × List EdgeId))
    (completed : List (Address × List Nat)) :
    ∃ part', Reading.read dagOf ⟨part ++ opened, completed⟩ ⟨a.fn, number⟩ =
        some ⟨part' ++ opened,
          completed ++ if rest = [] then [(a.fn, a.choices)] else []⟩ ∧
      Waits dagOf { a with pending := rest, started := true } part' := by
  cases waits with
  | @fresh D todo dag pieces pending walk =>
      have hresume : Reading.resume a.fn false opened = some ([], opened) := rfl
      exact Reading.read_pieces (readable _ _ dag) dag pieces
        (hpending.symm.trans pending) hresume walk completed
  | @begun D todo edges _ dag pieces pending walk =>
      have hresume : Reading.resume a.fn true ((a.fn, edges) :: opened) =
          some (edges, opened) := if_pos rfl
      exact Reading.read_pieces (readable _ _ dag) dag pieces
        (hpending.symm.trans pending) hresume walk completed
  | done pending =>
      rw [pending] at hpending
      contradiction

theorem Waits.eq_nil {part : List (Address × List EdgeId)} (waits : Waits dagOf a part)
    (hmidway : a.midway = false) : part = [] := by
  cases waits with
  | fresh => rfl
  | begun edges started dag pieces pending walk =>
      simp only [Activation.midway, started, pending, Bool.true_and, Bool.not_eq_false',
        List.isEmpty_iff, List.map_eq_nil_iff] at hmidway
      subst hmidway
      cases pieces
  | done => rfl

end Read

theorem waits_of_path {dagOf : Address → Option Dag} {D : Dag}
    {numPaths : NodeId → Nat} (numbers : D.PathNumbers numPaths) (shape : D.BallLarus)
    {fn : Address} (dag : dagOf fn = some D) {path : List EdgeId}
    (hpath : D.Path D.IsRealEdge D.root path D.exit) :
    Waits dagOf ⟨fn, D.choicesOf path, D.segmentNumbers path, false⟩ [] := by
  obtain ⟨pieces, hwalk⟩ := numbers.pieces shape hpath
  exact .fresh dag pieces rfl (congrArg D.choicesOf hwalk)

end RrWorkbench.PathProgram
