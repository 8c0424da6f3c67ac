import Mathlib.Data.List.Basic
import Mathlib.Logic.Function.Basic

namespace RrWorkbench.PathLogging

/-! The part of an LLVM function that the path logging pass reads and changes:
its blocks with their terminators, and the instructions that the pass inserts.
The instructions a block had before the pass stand between `front` and `back`
and do not touch the path number. -/

abbrev BlockId := Nat

/-- Operands of inserted instructions: an `i32` constant, the `pathNumber` PHI of
a block, or the result of an inserted `Add`. -/
inductive Value
  | const (value : BitVec 32)
  | phi (block : BlockId)
  | add (inst : Nat)
  deriving DecidableEq, Repr

/-- `createIncrementConstant`: the constant keeps the low 32 bits of `incr`. -/
def createIncrementConstant (incr : Int) : BitVec 32 :=
  BitVec.ofInt 32 incr

inductive Inst
  | add (inst : Nat) (lhs : Value) (rhs : BitVec 32)
  | incrementPathCount (path : Value)
  deriving DecidableEq, Repr

inductive Terminator
  | ret
  | unreachable
  | resume
  | br
  | switch
  | invoke
  | indirectbr
  deriving DecidableEq, Repr

/-- The terminators for which `BallLarusDag` adds an edge to the exit node. -/
def Terminator.leavesFunction : Terminator → Bool
  | .ret | .unreachable | .resume => true
  | _ => false

structure Block where
  terminator : Terminator
  successors : List BlockId
  isLandingPad : Bool := false
  /-- The incoming values of the `pathNumber` PHI, if the block has one. -/
  pathPHI : Option (List (Value × BlockId)) := none
  /-- Instructions inserted at `getFirstInsertionPt()`. -/
  front : List Inst := []
  /-- Instructions inserted before the terminator. -/
  back : List Inst := []
  deriving DecidableEq, Repr

structure LlvmFunction where
  block : BlockId → Block
  numBlocks : Nat
  entry : BlockId
  nextInst : Nat := 0

namespace LlvmFunction

def modifyBlock (F : LlvmFunction) (b : BlockId) (change : Block → Block) :
    LlvmFunction :=
  { F with block := Function.update F.block b (change (F.block b)) }

def successors (F : LlvmFunction) (b : BlockId) : List BlockId :=
  (F.block b).successors

/-- `pred_begin(b) .. pred_end(b)`: one entry for each edge into `b`. -/
def predecessors (F : LlvmFunction) (b : BlockId) : List BlockId :=
  (List.range F.numBlocks).flatMap fun p =>
    List.replicate ((F.successors p).count b) p

theorem modifyBlock_self (F : LlvmFunction) (b : BlockId)
    (change : Block → Block) :
    (F.modifyBlock b change).block b = change (F.block b) := by
  simp [modifyBlock]

theorem modifyBlock_of_ne (F : LlvmFunction) {b other : BlockId}
    (change : Block → Block) (hne : other ≠ b) :
    (F.modifyBlock b change).block other = F.block other := by
  simp [modifyBlock, hne]

end LlvmFunction

/-! Incoming values of a PHI. -/

namespace Incoming

/-- `PHINode::removeIncomingValue(block, false)`; `none` is its assertion that
the block has an incoming value. -/
def remove : List (Value × BlockId) → BlockId → Option (List (Value × BlockId))
  | [], _ => none
  | entry :: rest, block =>
      if entry.2 = block then some rest
      else (remove rest block).map (entry :: ·)

def lookup : List (Value × BlockId) → BlockId → Option Value
  | [], _ => none
  | entry :: rest, block =>
      if entry.2 = block then some entry.1 else lookup rest block

def revector : List (Value × BlockId) → BlockId → BlockId →
    List (Value × BlockId)
  | [], _, _ => []
  | entry :: rest, former, block =>
      if entry.2 = former then (entry.1, block) :: rest
      else entry :: revector rest former block

end Incoming

namespace LlvmFunction

/-- The function with a new block on the edge that leaves `source` at `succNum`
for `target`.  One incoming value of the PHI of `target` now comes from the new
block. -/
def withSplitEdge (F : LlvmFunction) (source : BlockId) (succNum : Nat)
    (target : BlockId) : LlvmFunction :=
  let newBlock := F.numBlocks
  let redirected := F.modifyBlock source fun block =>
    { block with successors := block.successors.set succNum newBlock }
  let revectored := redirected.modifyBlock target fun block =>
    { block with
      pathPHI := block.pathPHI.map fun entries =>
        Incoming.revector entries source newBlock }
  { revectored with
    block := Function.update revectored.block newBlock
      { terminator := .br, successors := [target] }
    numBlocks := F.numBlocks + 1 }

/-- LLVM's `isCriticalEdge` without identical edges. -/
def isCriticalEdge (F : LlvmFunction) (source target : BlockId) : Prop :=
  1 < (F.successors source).length ∧ 1 < (F.predecessors target).length

end LlvmFunction

/-- LLVM's `SplitCriticalEdge(terminator, succNum, this, false)`, which is not part
of this repository, with its documented behaviour: a critical edge into a landing
pad is left alone, any other critical edge gets a new block. -/
structure SplitCriticalEdge where
  split : LlvmFunction → BlockId → Nat → Option LlvmFunction
  split_landingPad : ∀ (F : LlvmFunction) (source target : BlockId) (succNum : Nat),
    (F.successors source)[succNum]? = some target →
    (F.block target).isLandingPad = true →
    split F source succNum = none
  split_critical : ∀ (F : LlvmFunction) (source target : BlockId) (succNum : Nat),
    (F.successors source)[succNum]? = some target →
    (F.block target).isLandingPad = false →
    (F.block source).terminator ≠ .indirectbr →
    F.isCriticalEdge source target →
    split F source succNum = some (F.withSplitEdge source succNum target)

end RrWorkbench.PathLogging
