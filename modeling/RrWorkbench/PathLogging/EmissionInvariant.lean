import RrWorkbench.PathLogging.EdgeMarks

namespace RrWorkbench.PathLogging

/-! The invariant of the emission.  Control crosses an edge of the DAG by executing
the instructions at the end of its source, the PHI of its target and the
instructions at the beginning of its target. -/

/-- What is executed between the middle of a block and the middle of the next, and
where the path register is kept before and after. -/
structure Crossing where
  before : Option Value
  outCode : List Inst
  target : Option BlockId
  incoming : Option (Option Value)
  inCode : List Inst
  after : Option Value

namespace Crossing

def enter (crossing : Crossing) (env : Env) : Option Env :=
  match crossing.incoming, crossing.target with
  | none, _ => some env
  | some (some value), some target =>
      some { env with phi := Function.update env.phi target (value.eval env) }
  | some _, _ => none

def Correct (crossing : Crossing) (step : Option Int → Option Int × List Int) :
    Prop :=
  ∀ env register, Holds env crossing.before register →
    ∃ entered,
      crossing.enter (execInsts env crossing.outCode).1 = some entered ∧
      Holds (execInsts entered crossing.inCode).1 crossing.after
        (step register).1 ∧
      (execInsts env crossing.outCode).2 ++
          (execInsts entered crossing.inCode).2 =
        (step register).2.map (BitVec.ofInt 32)

variable {crossing : Crossing} {step : Option Int → Option Int × List Int}

theorem Correct.of_inCode (hout : crossing.outCode = [])
    (hincoming : crossing.incoming = none)
    (computes : Computes crossing.inCode crossing.before crossing.after step) :
    crossing.Correct step := by
  intro env register holds
  obtain ⟨hlog, holds'⟩ := computes env register holds
  refine ⟨env, ?_, holds', ?_⟩
  · rw [hout, enter, hincoming]
    rfl
  · rw [hout]
    exact hlog

theorem Correct.of_outCode (hin : crossing.inCode = [])
    (hincoming : crossing.incoming = none)
    (computes : Computes crossing.outCode crossing.before crossing.after step) :
    crossing.Correct step := by
  intro env register holds
  obtain ⟨hlog, holds'⟩ := computes env register holds
  refine ⟨(execInsts env crossing.outCode).1, ?_, ?_, ?_⟩
  · rw [enter, hincoming]
  · rw [hin]
    exact holds'
  · rw [hin, hlog]
    simp [execInsts]

/-- The instructions at the end of the source leave a value that the PHI of the
target takes over. -/
theorem Correct.of_phi {value : Value} {b : BlockId}
    (hin : crossing.inCode = [])
    (hincoming : crossing.incoming = some (some value))
    (htarget : crossing.target = some b)
    (hafter : crossing.after = some (.phi b))
    (computes : Computes crossing.outCode crossing.before (some value) step) :
    crossing.Correct step := by
  intro env register holds
  obtain ⟨hlog, holds'⟩ := computes env register holds
  let left := (execInsts env crossing.outCode).1
  refine ⟨{ left with phi := Function.update left.phi b (value.eval left) },
    ?_, ?_, ?_⟩
  · rw [enter, hincoming, htarget]
  · rw [hin, hafter]
    simp only [Holds, execInsts, Option.map_some, Value.eval.eq_2,
      Function.update_self]
    exact holds'
  · rw [hin, hlog]
    simp [execInsts]

end Crossing

/-- What the proof knows about an emission under way: where the register is live
and which value keeps it in the middle of a block, which nodes have been reached
and which edges are done, and how the instructions before a terminator divide
into those of the edge into the node and those of the edge out of it. -/
structure Ghost where
  live : NodeId → Bool
  arrived : NodeId → Prop
  done : EdgeId → Prop
  holder : NodeId → Option Value
  inBack : NodeId → List Inst
  outBack : NodeId → List Inst

variable (G : Ghost) (D : Dag) (F : LlvmFunction)

def incomingValue (e : EdgeId) : Option (Option Value) :=
  match D.getBlock (D.source e), D.getBlock (D.target e) with
  | some source, some target =>
      (F.block target).pathPHI.map (Incoming.lookup · source)
  | _, _ => none

def Ghost.inCode (x : NodeId) : List Inst :=
  match D.getBlock x with
  | some b => (F.block b).front ++ G.inBack x
  | none => []

def Ghost.crossing (e : EdgeId) : Crossing where
  before := G.holder (D.source e)
  outCode := G.outBack (D.source e)
  target := D.getBlock (D.target e)
  incoming := incomingValue D F e
  inCode := G.inCode D F (D.target e)
  after := G.holder (D.target e)

/-- Instructions for the edge can be put into its source or its target. -/
def Dag.Noncritical (e : EdgeId) : Prop :=
  D.getNumberSuccEdges (D.source e) ≤ 1 ∨
    D.getNumberPredEdges (D.target e) ≤ 1

/-- A critical edge that LLVM does not split: it leaves an `indirectbr` or enters
a landing pad. -/
def Unsplittable (e : EdgeId) : Prop :=
  1 < D.getNumberSuccEdges (D.source e) ∧
    1 < D.getNumberPredEdges (D.target e) ∧
    ∃ source target, D.getBlock (D.source e) = some source ∧
      D.getBlock (D.target e) = some target ∧
      ((F.block source).terminator = .indirectbr ∨
        (F.block target).isLandingPad = true)

structure FreshNode (x : NodeId) : Prop where
  starting : D.startingPathNumber x = none
  ending : D.endingPathNumber x = none
  nodePHI : (D.node x).pathPHI = none
  inBack : G.inBack x = []
  outBack : G.outBack x = []
  block : ∀ b, D.getBlock x = some b →
    (F.block b).pathPHI = none ∧ (F.block b).front = []

/-- A node that several edges enter keeps the register, if it is live, in a PHI. -/
structure JoinNode (x : NodeId) (b : BlockId) : Prop where
  front : (F.block b).front = []
  inBack : G.inBack x = []
  live : G.arrived x → G.live x = true →
    G.holder x = some (.phi b) ∧ (F.block b).pathPHI.isSome ∧
      (D.node x).pathPHI = some b
  dead : G.arrived x → G.live x = false →
    (F.block b).pathPHI = none ∧ (D.node x).pathPHI = none

/-- The nodes' path numbers are the values that keep the register, as long as an
edge out of the node has still to be instrumented. -/
structure PathNumbers (e : EdgeId) : Prop where
  ending : D.endingPathNumber (D.source e) = G.holder (D.source e)
  starting : G.live (D.source e) = true →
    D.startingPathNumber (D.source e) = G.holder (D.source e) ∨ D.IsPlain e

structure Coded (e : EdgeId) : Prop where
  noncritical : D.Noncritical e
  source_arrived : G.arrived (D.source e)
  target_arrived : G.arrived (D.target e)
  correct : (G.crossing D F e).Correct (D.traverse e)

structure EmissionInvariant (exitRoot : EdgeId) : Prop where
  layout : Layout D F exitRoot
  phis : F.PhiOk
  paths : 0 < D.numberOfPaths
  marks : ∀ e, D.Linked e → e ≠ exitRoot → EdgeMarks G.live D e
  root_arrived : G.arrived D.root
  root_dead : G.live D.root = false
  exit_dead : G.live D.exit = false
  root_code : G.inCode D F D.root = []
  arrived_lt : ∀ x, G.arrived x → x < D.numNodes
  arrived_over : ∀ x, G.arrived x → x ≠ D.root →
    ∃ e, G.done e ∧ e ≠ exitRoot ∧ D.target e = x
  exitRoot_done : G.done exitRoot
  done_linked : ∀ e, G.done e → D.Linked e
  fresh : ∀ x, x < D.numNodes → ¬ G.arrived x → FreshNode G D F x
  back : ∀ x b, x < D.numNodes → D.getBlock x = some b →
    (F.block b).back = G.inBack x ++ G.outBack x
  outBack_undone : ∀ e, D.Linked e → ¬ G.done e → G.outBack (D.source e) = []
  outBack_branch : ∀ x, 1 < D.getNumberSuccEdges x → G.outBack x = []
  pathNumbers : ∀ e, D.Linked e → ¬ G.done e → G.arrived (D.source e) →
    PathNumbers G D e
  holder_live : ∀ x, G.arrived x → (G.holder x).isSome = G.live x
  join : ∀ x b, x < D.numNodes → D.getBlock x = some b →
    1 < D.getNumberPredEdges x → JoinNode G D F x b
  single : ∀ x b, x < D.numNodes → D.getBlock x = some b →
    D.getNumberPredEdges x ≤ 1 → (F.block b).pathPHI = none
  coded : ∀ e, G.done e → e ≠ exitRoot → Coded G D F e ∨ Unsplittable D F e

variable {G : Ghost} {D : Dag} {F : LlvmFunction}

theorem Ghost.inCode_eq {x : NodeId} {b : BlockId} (hb : D.getBlock x = some b) :
    G.inCode D F x = (F.block b).front ++ G.inBack x := by
  rw [Ghost.inCode, hb]

theorem Ghost.inCode_none {x : NodeId} (hb : D.getBlock x = none) :
    G.inCode D F x = [] := by
  rw [Ghost.inCode, hb]

theorem incomingValue_eq {e : EdgeId} {source target : BlockId}
    (hsource : D.getBlock (D.source e) = some source)
    (htarget : D.getBlock (D.target e) = some target) :
    incomingValue D F e =
      (F.block target).pathPHI.map (Incoming.lookup · source) := by
  rw [incomingValue, hsource, htarget]

theorem incomingValue_none {e : EdgeId}
    (hnone : ∀ b, D.getBlock (D.target e) = some b →
      (F.block b).pathPHI = none) : incomingValue D F e = none := by
  unfold incomingValue
  split
  · rename_i htarget
    rw [hnone _ htarget]
    rfl
  · rfl

/-! Splitting an edge. -/

def Ghost.split (G : Ghost) (D : Dag) (e : EdgeId) : Ghost :=
  { G with
    live := splitLive G.live D e
    inBack := Function.update G.inBack D.numNodes []
    outBack := Function.update G.outBack D.numNodes [] }

section Split

variable {exitRoot e : EdgeId} {source target : BlockId} {succNum : Nat}

@[simp] theorem Ghost.split_inBack {x : NodeId} (hx : x < D.numNodes) :
    (G.split D e).inBack x = G.inBack x :=
  Function.update_of_ne (Nat.ne_of_lt hx) _ _

@[simp] theorem Ghost.split_outBack {x : NodeId} (hx : x < D.numNodes) :
    (G.split D e).outBack x = G.outBack x :=
  Function.update_of_ne (Nat.ne_of_lt hx) _ _

structure SplitSite (G : Ghost) (D : Dag) (F : LlvmFunction) (exitRoot e : EdgeId)
    (source : BlockId) (succNum : Nat) (target : BlockId) : Prop where
  invariant : EmissionInvariant G D F exitRoot
  linked : D.Linked e
  ne : e ≠ exitRoot
  undone : ¬ G.done e
  source : D.getBlock (D.source e) = some source
  target : D.getBlock (D.target e) = some target
  succ : 1 < D.getNumberSuccEdges (D.source e)
  pred : 1 < D.getNumberPredEdges (D.target e)
  position : (D.succEdges (D.source e))[succNum]? = some e

namespace SplitSite

variable (site : SplitSite G D F exitRoot e source succNum target)

include site

theorem source_lt : D.source e < D.numNodes :=
  site.invariant.layout.source_lt e site.linked

theorem target_lt : D.target e < D.numNodes :=
  site.invariant.layout.target_lt e site.linked

theorem sourceBlock_lt : source < F.numBlocks :=
  site.invariant.layout.block_lt site.source_lt site.source

theorem targetBlock_lt : target < F.numBlocks :=
  site.invariant.layout.block_lt site.target_lt site.target

theorem successor : (F.successors source)[succNum]? = some target := by
  rw [site.invariant.layout.getElem?_successors site.source_lt site.source
    fun f hf => site.invariant.layout.target_ne_exit site.succ hf,
    site.position]
  exact site.target

theorem layout :
    Layout (D.splitUpdate e F.numBlocks)
      (F.withSplitEdge source succNum target) exitRoot :=
  site.invariant.layout.split site.linked site.ne site.source site.target
    site.succ site.position

theorem getBlock_old {x : NodeId} (hx : x < D.numNodes) :
    (D.splitUpdate e F.numBlocks).getBlock x = D.getBlock x := by
  rw [Dag.splitUpdate_getBlock site.target_lt, if_neg (Nat.ne_of_lt hx)]

theorem getBlock_new :
    (D.splitUpdate e F.numBlocks).getBlock D.numNodes = some F.numBlocks := by
  rw [Dag.splitUpdate_getBlock site.target_lt, if_pos rfl]

theorem succEdges_old {x : NodeId} (hx : x < D.numNodes) :
    (D.splitUpdate e F.numBlocks).succEdges x = D.succEdges x := by
  rw [Dag.splitUpdate_succEdges site.target_lt, if_neg (Nat.ne_of_lt hx)]

theorem source_old {f : EdgeId} (hf : D.Linked f) :
    (D.splitUpdate e F.numBlocks).source f = D.source f := by
  rw [Dag.splitUpdate_source site.linked.1, if_neg (Nat.ne_of_lt hf.1)]

theorem target_old {f : EdgeId} (hf : D.Linked f) (hne : f ≠ e) :
    (D.splitUpdate e F.numBlocks).target f = D.target f := by
  rw [Dag.splitUpdate_target site.linked.1, if_neg (Nat.ne_of_lt hf.1),
    if_neg hne]

theorem node_old {x : NodeId} (hx : x < D.numNodes) :
    let node := (D.splitUpdate e F.numBlocks).node x
    node.startingPathNumber = (D.node x).startingPathNumber ∧
      node.endingPathNumber = (D.node x).endingPathNumber ∧
      node.pathPHI = (D.node x).pathPHI := by
  rw [Dag.splitUpdate_node site.target_lt, if_neg (Nat.ne_of_lt hx)]
  dsimp only
  split
  all_goals exact ⟨rfl, rfl, rfl⟩

theorem node_new :
    (D.splitUpdate e F.numBlocks).node D.numNodes =
      { block := some F.numBlocks, predEdges := [e],
        succEdges := [D.numEdges] } := by
  rw [Dag.splitUpdate_node site.target_lt, if_pos rfl]

theorem pathPHI_old {b : BlockId} (hb : b < F.numBlocks) :
    ((F.withSplitEdge source succNum target).block b).pathPHI =
      if b = target then
        (F.block b).pathPHI.map (Incoming.revector · source F.numBlocks)
      else (F.block b).pathPHI := by
  rw [LlvmFunction.withSplitEdge_pathPHI site.sourceBlock_lt
    site.targetBlock_lt, if_neg (Nat.ne_of_lt hb)]

theorem pathPHI_isSome {b : BlockId} (hb : b < F.numBlocks) :
    ((F.withSplitEdge source succNum target).block b).pathPHI.isSome =
      (F.block b).pathPHI.isSome := by
  rw [site.pathPHI_old hb]
  split
  · simp
  · rfl

theorem pathPHI_none {b : BlockId} (hb : b < F.numBlocks)
    (hnone : (F.block b).pathPHI = none) :
    ((F.withSplitEdge source succNum target).block b).pathPHI = none := by
  have := site.pathPHI_isSome hb
  rw [hnone] at this
  simpa using this

theorem inCode_old {x : NodeId} (hx : x < D.numNodes) :
    (G.split D e).inCode (D.splitUpdate e F.numBlocks)
      (F.withSplitEdge source succNum target) x = G.inCode D F x := by
  unfold Ghost.inCode
  rw [site.getBlock_old hx, Ghost.split_inBack hx]
  cases hb : D.getBlock x with
  | none => rfl
  | some b =>
      have hlt := site.invariant.layout.block_lt hx hb
      exact congrArg (· ++ _)
        (LlvmFunction.withSplitEdge_block_of_ne (Nat.ne_of_lt hlt)).2.2.1

theorem linked_cases {f : EdgeId}
    (hf : (D.splitUpdate e F.numBlocks).Linked f) :
    f = D.numEdges ∨ D.Linked f :=
  (Dag.splitUpdate_linked site.linked.1 site.linked f).mp hf

theorem ne_of_done {f : EdgeId} (hf : G.done f) : f ≠ e := by
  rintro rfl
  exact site.undone hf

theorem isPlain_old {f : EdgeId} (hf : D.Linked f) (plain : D.IsPlain f) :
    (D.splitUpdate e F.numBlocks).IsPlain f :=
  plain.split site.linked hf.1

theorem fresh {x : NodeId}
    (hx : x < (D.splitUpdate e F.numBlocks).numNodes) (hnot : ¬ G.arrived x) :
    FreshNode (G.split D e) (D.splitUpdate e F.numBlocks)
      (F.withSplitEdge source succNum target) x := by
  by_cases hnew : x = D.numNodes
  · subst hnew
    refine ⟨?_, ?_, ?_, Function.update_self .., Function.update_self .., ?_⟩
    · rw [Dag.startingPathNumber, site.node_new]
    · rw [Dag.endingPathNumber, site.node_new]
    · rw [site.node_new]
    · intro b hb
      rw [site.getBlock_new] at hb
      cases hb
      rw [LlvmFunction.withSplitEdge_block_new]
      exact ⟨rfl, rfl⟩
  · rw [Dag.splitUpdate_numNodes] at hx
    have hlt := Nat.lt_of_le_of_ne (Nat.le_of_lt_succ hx) hnew
    have fresh := site.invariant.fresh x hlt hnot
    obtain ⟨hstarting, hending, hphi⟩ := site.node_old hlt
    refine ⟨hstarting.trans fresh.starting, hending.trans fresh.ending,
      hphi.trans fresh.nodePHI, (Ghost.split_inBack hlt).trans fresh.inBack,
      (Ghost.split_outBack hlt).trans fresh.outBack, ?_⟩
    intro b hb
    rw [site.getBlock_old hlt] at hb
    have hblt := site.invariant.layout.block_lt hlt hb
    obtain ⟨hnone, hfront⟩ := fresh.block b hb
    exact ⟨site.pathPHI_none hblt hnone,
      (LlvmFunction.withSplitEdge_block_of_ne (Nat.ne_of_lt hblt)).2.2.1.trans
        hfront⟩

theorem join {x : NodeId} {b : BlockId}
    (hx : x < (D.splitUpdate e F.numBlocks).numNodes)
    (hb : (D.splitUpdate e F.numBlocks).getBlock x = some b)
    (hpred : 1 < (D.splitUpdate e F.numBlocks).getNumberPredEdges x) :
    JoinNode (G.split D e) (D.splitUpdate e F.numBlocks)
      (F.withSplitEdge source succNum target) x b := by
  by_cases hnew : x = D.numNodes
  · subst hnew
    simp [Dag.getNumberPredEdges, Dag.predEdges, site.node_new] at hpred
  · rw [Dag.splitUpdate_numNodes] at hx
    have hlt := Nat.lt_of_le_of_ne (Nat.le_of_lt_succ hx) hnew
    rw [site.getBlock_old hlt] at hb
    rw [site.invariant.layout.links.getNumberPredEdges_split site.linked hlt] at hpred
    have join := site.invariant.join x b hlt hb hpred
    have hblt := site.invariant.layout.block_lt hlt hb
    obtain ⟨_, _, hphi⟩ := site.node_old hlt
    refine ⟨?_, (Ghost.split_inBack hlt).trans join.inBack, ?_, ?_⟩
    · exact (LlvmFunction.withSplitEdge_block_of_ne
        (Nat.ne_of_lt hblt)).2.2.1.trans join.front
    · intro harrived hlive
      obtain ⟨hholder, hsome, hnode⟩ :=
        join.live harrived ((splitLive_of_lt hlt).symm.trans hlive)
      exact ⟨hholder, (site.pathPHI_isSome hblt).trans hsome,
        hphi.trans hnode⟩
    · intro harrived hdead
      obtain ⟨hnone, hnode⟩ :=
        join.dead harrived ((splitLive_of_lt hlt).symm.trans hdead)
      exact ⟨site.pathPHI_none hblt hnone, hphi.trans hnode⟩

/-- An instrumented edge into the target of the split edge comes from another
block, so its incoming value is not touched. -/
theorem incomingValue_old {f : EdgeId} (hf : D.Linked f) (hne : f ≠ e)
    (noncritical : D.Noncritical f) :
    incomingValue (D.splitUpdate e F.numBlocks)
      (F.withSplitEdge source succNum target) f = incomingValue D F f := by
  have layout := site.invariant.layout
  unfold incomingValue
  rw [site.source_old hf, site.target_old hf hne,
    site.getBlock_old (layout.source_lt f hf),
    site.getBlock_old (layout.target_lt f hf)]
  cases hs : D.getBlock (D.source f) with
  | none => rfl
  | some s =>
      cases ht : D.getBlock (D.target f) with
      | none => rfl
      | some t =>
          have htlt := layout.block_lt (layout.target_lt f hf) ht
          have hslt := layout.block_lt (layout.source_lt f hf) hs
          dsimp only
          rw [site.pathPHI_old htlt]
          split
          · subst t
            have hsame : D.target f = D.target e :=
              layout.block_injective _ _ _ (layout.target_lt f hf)
                site.target_lt ht site.target
            have hsource : s ≠ source := by
              rintro rfl
              have heq : D.source f = D.source e :=
                layout.block_injective _ _ _ (layout.source_lt f hf)
                  site.source_lt hs site.source
              rcases noncritical with hsucc | hpred
              · rw [heq] at hsucc
                exact absurd site.succ (Nat.not_lt.mpr hsucc)
              · rw [hsame] at hpred
                exact absurd site.pred (Nat.not_lt.mpr hpred)
            rw [Option.map_map]
            congr 1
            funext entries
            exact Incoming.lookup_revector hsource (Nat.ne_of_lt hslt)
          · rfl

theorem coded {f : EdgeId} (hdone : G.done f) (hf : D.Linked f)
    (hfroot : f ≠ exitRoot) (coded : Coded G D F f) :
    Coded (G.split D e) (D.splitUpdate e F.numBlocks)
      (F.withSplitEdge source succNum target) f := by
  have layout := site.invariant.layout
  have hne := site.ne_of_done hdone
  have hs := layout.source_lt f hf
  have ht := layout.target_lt f hf
  have hsource := site.source_old hf
  have htarget := site.target_old hf hne
  refine ⟨?_, ?_, ?_, ?_⟩
  · unfold Dag.Noncritical Dag.getNumberSuccEdges
    rw [hsource, htarget, site.succEdges_old hs,
      layout.links.getNumberPredEdges_split site.linked ht]
    exact coded.noncritical
  · rw [hsource]
    exact coded.source_arrived
  · rw [htarget]
    exact coded.target_arrived
  · have hcrossing : (G.split D e).crossing (D.splitUpdate e F.numBlocks)
        (F.withSplitEdge source succNum target) f = G.crossing D F f := by
      simp only [Ghost.crossing, hsource, htarget, Ghost.split_outBack hs,
        site.inCode_old ht, site.getBlock_old ht,
        site.incomingValue_old hf hne coded.noncritical]
      rfl
    rw [hcrossing,
      (site.invariant.marks f hf hfroot).traverse_split site.linked hf hne]
    exact coded.correct

theorem unsplittable {f : EdgeId} (hdone : G.done f) (hf : D.Linked f)
    (unsplittable : Unsplittable D F f) :
    Unsplittable (D.splitUpdate e F.numBlocks)
      (F.withSplitEdge source succNum target) f := by
  have layout := site.invariant.layout
  have hs := layout.source_lt f hf
  have ht := layout.target_lt f hf
  obtain ⟨hsucc, hpred, s, t, hbs, hbt, hcase⟩ := unsplittable
  have hslt := layout.block_lt hs hbs
  have htlt := layout.block_lt ht hbt
  unfold Unsplittable Dag.getNumberSuccEdges
  rw [site.source_old hf, site.target_old hf (site.ne_of_done hdone),
    site.succEdges_old hs, layout.links.getNumberPredEdges_split site.linked ht,
    site.getBlock_old hs, site.getBlock_old ht]
  refine ⟨hsucc, hpred, s, t, hbs, hbt, ?_⟩
  rw [(LlvmFunction.withSplitEdge_block_of_ne (Nat.ne_of_lt hslt)).1,
    (LlvmFunction.withSplitEdge_block_of_ne (Nat.ne_of_lt htlt)).2.1]
  exact hcase

theorem pathNumbers {f : EdgeId} (hf : D.Linked f) (hundone : ¬ G.done f)
    (harrived : G.arrived (D.source f)) :
    PathNumbers (G.split D e) (D.splitUpdate e F.numBlocks) f := by
  have hs := site.invariant.layout.source_lt f hf
  have numbers := site.invariant.pathNumbers f hf hundone harrived
  obtain ⟨hstarting, hending, _⟩ := site.node_old hs
  refine ⟨?_, ?_⟩
  · rw [site.source_old hf]
    exact hending.trans numbers.ending
  · rw [site.source_old hf]
    intro hlive
    rcases numbers.starting ((splitLive_of_lt hs).symm.trans hlive) with
      hsame | plain
    · exact .inl (hstarting.trans hsame)
    · exact .inr (site.isPlain_old hf plain)

/-- Splitting an edge keeps the invariant. -/
theorem split :
    EmissionInvariant (G.split D e) (D.splitUpdate e F.numBlocks)
      (F.withSplitEdge source succNum target) exitRoot := by
  have inv := site.invariant
  have layout := inv.layout
  have hcases : ∀ x, x < (D.splitUpdate e F.numBlocks).numNodes →
      x = D.numNodes ∨ x < D.numNodes := by
    intro x hx
    rw [Dag.splitUpdate_numNodes] at hx
    exact (Nat.lt_succ_iff_lt_or_eq.mp hx).symm
  refine
    { layout := site.layout
      phis := inv.phis.withSplitEdge site.sourceBlock_lt site.targetBlock_lt
        site.successor
      paths := by rw [Dag.splitUpdate_numberOfPaths]; exact inv.paths
      marks := ?_
      root_arrived := by rw [Dag.splitUpdate_root]; exact inv.root_arrived
      root_dead := ?_
      exit_dead := ?_
      root_code := ?_
      arrived_lt := ?_
      arrived_over := ?_
      exitRoot_done := inv.exitRoot_done
      done_linked := ?_
      fresh := fun x hx hnot => site.fresh hx hnot
      back := ?_
      outBack_undone := ?_
      outBack_branch := ?_
      pathNumbers := ?_
      holder_live := ?_
      join := fun x b hx hb hpred => site.join hx hb hpred
      single := ?_
      coded := ?_ }
  · intro f hf hfroot
    rcases site.linked_cases hf with rfl | hf
    · exact EdgeMarks.split_new layout site.linked
        (inv.marks e site.linked site.ne)
    · by_cases hfe : f = e
      · subst hfe
        exact EdgeMarks.split_former layout site.linked
          (inv.marks f site.linked site.ne)
      · exact EdgeMarks.split_other layout site.linked hf hfe
          (inv.marks f hf hfroot)
  · rw [Dag.splitUpdate_root]
    exact (splitLive_of_lt layout.root_lt).trans inv.root_dead
  · rw [Dag.splitUpdate_exit]
    exact (splitLive_of_lt layout.exit_lt).trans inv.exit_dead
  · rw [Dag.splitUpdate_root, site.inCode_old layout.root_lt]
    exact inv.root_code
  · intro x hx
    rw [Dag.splitUpdate_numNodes]
    exact Nat.lt_succ_of_lt (inv.arrived_lt x hx)
  · intro x hx hroot
    rw [Dag.splitUpdate_root] at hroot
    obtain ⟨f, hdone, hfroot, htarget⟩ := inv.arrived_over x hx hroot
    refine ⟨f, hdone, hfroot, ?_⟩
    rw [site.target_old (inv.done_linked f hdone) (site.ne_of_done hdone)]
    exact htarget
  · intro f hdone
    exact (Dag.splitUpdate_linked site.linked.1 site.linked f).mpr
      (.inr (inv.done_linked f hdone))
  · intro x b hx hb
    rcases hcases x hx with rfl | hlt
    · rw [site.getBlock_new] at hb
      cases hb
      rw [LlvmFunction.withSplitEdge_block_new]
      simp [Ghost.split]
    · rw [site.getBlock_old hlt] at hb
      have hblt := layout.block_lt hlt hb
      rw [(LlvmFunction.withSplitEdge_block_of_ne (Nat.ne_of_lt hblt)).2.2.2,
        Ghost.split_inBack hlt, Ghost.split_outBack hlt]
      exact inv.back x b hlt hb
  · intro f hf hundone
    rcases site.linked_cases hf with rfl | hf
    · rw [Dag.splitUpdate_source site.linked.1, if_pos rfl]
      exact Function.update_self ..
    · rw [site.source_old hf, Ghost.split_outBack (layout.source_lt f hf)]
      exact inv.outBack_undone f hf hundone
  · intro x hsucc
    by_cases hnew : x = D.numNodes
    · subst hnew
      exact Function.update_self ..
    · rw [Dag.getNumberSuccEdges, Dag.splitUpdate_succEdges site.target_lt,
        if_neg hnew] at hsucc
      have hother : (G.split D e).outBack x = G.outBack x :=
        Function.update_of_ne hnew _ _
      rw [hother]
      exact inv.outBack_branch x hsucc
  · intro f hf hundone harrived
    rcases site.linked_cases hf with rfl | hf
    · rw [Dag.splitUpdate_source site.linked.1, if_pos rfl] at harrived
      exact absurd (inv.arrived_lt _ harrived) (Nat.lt_irrefl _)
    · rw [site.source_old hf] at harrived
      exact site.pathNumbers hf hundone harrived
  · intro x hx
    exact (inv.holder_live x hx).trans
      (splitLive_of_lt (inv.arrived_lt x hx)).symm
  · intro x b hx hb hpred
    rcases hcases x hx with rfl | hlt
    · rw [site.getBlock_new] at hb
      cases hb
      rw [LlvmFunction.withSplitEdge_block_new]
    · rw [site.getBlock_old hlt] at hb
      rw [layout.links.getNumberPredEdges_split site.linked hlt] at hpred
      exact site.pathPHI_none (layout.block_lt hlt hb)
        (inv.single x b hlt hb hpred)
  · intro f hdone hfroot
    have hf := inv.done_linked f hdone
    rcases inv.coded f hdone hfroot with coded | unsplittable
    · exact .inl (site.coded hdone hf hfroot coded)
    · exact .inr (site.unsplittable hdone hf unsplittable)

end SplitSite

end Split

end RrWorkbench.PathLogging
