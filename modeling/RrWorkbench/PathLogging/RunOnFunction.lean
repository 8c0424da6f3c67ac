import RrWorkbench.PathLogging.CalculateSpanningTree
import RrWorkbench.PathLogging.ChordIncrements
import RrWorkbench.PathLogging.Segments

namespace RrWorkbench.PathLogging

open RrWorkbench.Data

/-! `runOnFunction` as a whole.  With no spanning tree every chord keeps the weight of
its edge; the passes then move the sum of each path to one edge, and the emitted code
logs it. -/

/-- The DAG of `F` as `runOnFunction` finds it: built by `BallLarusDag`, with weights
from `calculatePathNumbers`, and nothing yet from the passes.  The numbering skips
back and split edges and the edge from exit to root. -/
structure Dag.Numbered (D : Dag) (F : LlvmFunction) : Prop where
  shape : D.BallLarus
  represents : D.Represents F
  cut_weight : ∀ e, e < D.numEdges → (D.type e).isCut = true → D.weight e = 0
  exitRoot_weight : ∀ e, e < D.numEdges → D.source e = D.exit → D.weight e = 0
  untouched : D.Untouched
  unmarked : D.Unmarked
  increment : ∀ e, e < D.numEdges → D.increment e = 0
  hasInstrumentation : ∀ e, e < D.numEdges →
    (D.edge e).hasInstrumentation = false
  numbers : ∀ x, x < D.numNodes → D.startingPathNumber x = none ∧
    D.endingPathNumber x = none ∧ (D.node x).pathPHI = none

def LlvmFunction.Uninstrumented (F : LlvmFunction) : Prop :=
  ∀ b, b < F.numBlocks → (F.block b).pathPHI = none ∧
    (F.block b).front = [] ∧ (F.block b).back = []

def Dag.segmentNumbers (D : Dag) (path : List EdgeId) : List (BitVec 32) :=
  (D.segments path).map fun segment => BitVec.ofInt 32 (D.pathNumber segment)

namespace Dag

def chords (D : Dag) : List EdgeId :=
  (List.range D.numEdges).filter (D.type · ≠ .splitedge)

def withChordWeights (D : Dag) (color : NodeId → NodeColor) : Dag :=
  ({ D.withColors color with chordEdges := D.chords } : Dag).withIncrements fun e =>
    if e ∈ D.chords then D.increment e + D.weight e else D.increment e

theorem calculateChordIncrements_nil (D : Dag) (htree : D.treeEdges = [])
    (nodup : D.chordEdges.Nodup) (fuel : Nat) :
    calculateChordIncrements (fuel + 1) D =
      some (D.withIncrements fun e =>
        if e ∈ D.chordEdges then D.increment e + D.weight e else D.increment e) := by
  have hsearch : D.addChordIncrements 0 D.root none = D := by
    have := D.addChordIncrements_withIncrements nodup D.increment 0 D.root none
    simpa using this
  have hweights := D.addChordWeights_withIncrements nodup D.increment
  rw [withIncrements_self] at hweights
  simp [calculateChordIncrements, calculateChordIncrementsDfs, htree, hsearch,
    hweights]

namespace Numbered

variable {D : Dag} {F : LlvmFunction} (numbered : D.Numbered F)

include numbered

theorem passes_eq : ∃ color, ∀ fuel, ∃ D',
    D.calculateSpanningTree (fuel + 1) = some D' ∧
      D'.calculateChordIncrements (fuel + 1) = some (D.withChordWeights color) := by
  obtain ⟨color, heq⟩ := calculateSpanningTree_eq numbered.shape.root_lt
    numbered.untouched
  refine ⟨color, fun fuel => ⟨_, heq fuel, ?_⟩⟩
  exact calculateChordIncrements_nil
    { D.withColors color with chordEdges := D.chords }
    numbered.untouched.treeEdges (List.nodup_range.filter _) fuel

section Weights

variable (color : NodeId → NodeColor)

theorem shape_withChordWeights : (D.withChordWeights color).BallLarus :=
  { numbered.shape with }

theorem represents_withChordWeights : (D.withChordWeights color).Represents F :=
  { numbered.represents with }

theorem unmarked_withChordWeights : (D.withChordWeights color).Unmarked :=
  { numbered.unmarked with }

theorem increment_chord {e : EdgeId} (he : e < D.numEdges)
    (hsplit : D.type e ≠ .splitedge) :
    (D.withChordWeights color).increment e = D.weight e := by
  have hmem : e ∈ D.chords :=
    List.mem_filter.mpr ⟨List.mem_range.mpr he, decide_eq_true hsplit⟩
  refine (if_pos hmem).trans ?_
  rw [numbered.increment e he, zero_add]

theorem increment_cut {e : EdgeId} (he : e < D.numEdges)
    (hcut : (D.type e).isCut = true) :
    (D.withChordWeights color).increment e = 0 := by
  by_cases hsplit : D.type e = .splitedge
  · have hmem : e ∉ D.chords := fun h =>
      of_decide_eq_true (List.mem_filter.mp h).2 hsplit
    exact (if_neg hmem).trans (numbered.increment e he)
  · rw [numbered.increment_chord color he hsplit, numbered.cut_weight e he hcut]

theorem pathNumber_eq {exitRoot : EdgeId} (hexitRoot : D.IsExitRootEdge exitRoot)
    {segment : List EdgeId} (hpath : D.RootExitPath segment) :
    (D.withChordWeights color).increment exitRoot +
      (segment.map (D.withChordWeights color).increment).sum =
        D.pathNumber segment := by
  have hzero : (D.withChordWeights color).increment exitRoot = 0 := by
    rw [numbered.increment_chord color hexitRoot.lt (by rw [hexitRoot.normal]; decide)]
    exact numbered.exitRoot_weight exitRoot hexitRoot.lt hexitRoot.source
  have hsame : segment.map (D.withChordWeights color).increment =
      segment.map D.weight :=
    List.map_congr_left fun e he =>
      have hdag := hpath.allowed_of_mem e he
      numbered.increment_chord color hdag.1 hdag.ne_splitedge
  rw [hzero, zero_add, hsame, pathNumber]

theorem not_hasInstrumentation (init counter : Marks EdgeId Int) (e : EdgeId)
    (he : ((D.withChordWeights color).withMarks init counter).unlinked.Linked e) :
    (((D.withChordWeights color).withMarks init counter).unlinked.edge
      e).hasInstrumentation = false :=
  numbered.hasInstrumentation e he.1

end Weights

theorem start {exitRoot : EdgeId} (hF : F.Uninstrumented)
    {color : NodeId → NodeColor} {init counter : Marks EdgeId Int}
    (pushed : Pushed (D.withChordWeights color) exitRoot init counter) :
    Start (live (D.withChordWeights color)
        ((D.withChordWeights color).withMarks init counter))
      ((D.withChordWeights color).withMarks init counter).unlinked F exitRoot := by
  have shape := numbered.shape_withChordWeights color
  have placed := pushed.placed shape (numbered.unmarked_withChordWeights color)
  have represents := numbered.represents_withChordWeights color
  obtain ⟨hinit, hcounter, hincrement⟩ := placed.exitRoot
  exact
    { layout := represents.withMarks.layout shape.withMarks pushed.exitRoot.withMarks
      paths := shape.numberOfPaths_pos
      marks := fun e he hne => placed.edgeMarks shape pushed.exitRoot he hne
        (numbered.increment_cut color he.1)
      root_dead := placed.root_dead shape
      exit_dead := placed.exit_dead shape
      numbers := numbered.numbers
      blocks := hF
      exitRoot_plain :=
        { isCut := by
            change (D.type exitRoot).isCut = false
            rw [show D.type exitRoot = .normal from pushed.exitRoot.normal]
            rfl
          isInitialization := hinit
          isCounterIncrement := hcounter
          increment := hincrement }
      no_callPhony := shape.no_callPhony }

theorem run_walk {exitRoot : EdgeId} {color : NodeId → NodeColor}
    {init counter : Marks EdgeId Int} {G : Ghost} {st : Emission}
    (pushed : Pushed (D.withChordWeights color) exitRoot init counter)
    (emitted : Emitted ((D.withChordWeights color).withMarks init counter).unlinked F
      exitRoot G st)
    {choices : List Nat} (hwalk : F.WalkOver F.Instrumentable F.entry choices)
    (env : Env) {steps : Nat} (hsteps : 2 * choices.length + 1 ≤ steps) :
    ∃ path, D.unlinked.walkEdges D.root choices = some path ∧
      st.func.run F.numBlocks steps F.entry env choices =
        some (D.segmentNumbers path) := by
  have shape := numbered.shape_withChordWeights color
  have placed := pushed.placed shape (numbered.unmarked_withChordWeights color)
  have represents := numbered.represents_withChordWeights color
  have inv := emitted.ready.invariant
  have hroot : st.dag.root = D.root := emitted.ready.origin.root
  have hcode : G.inCode st.dag st.func D.root = [] := hroot ▸ inv.root_code
  have hholder : G.holder D.root = none := by
    have hlive := (inv.holder_live _ inv.root_arrived).trans inv.root_dead
    rw [hroot] at hlive
    exact Option.not_isSome_iff_eq_none.mp (ne_of_eq_of_ne hlive Bool.false_ne_true)
  have holds : Holds (execInsts env (G.inCode st.dag st.func D.root)).1
      (G.holder D.root) none := by
    rw [hholder]
    exact holds_none _
  obtain ⟨path, hpath, hreal, hrun⟩ := emitted.run_of_walk
    (represents.withMarks.leavesAtExit shape.withMarks) (x := D.root) numbered.shape.root_lt
    numbered.represents.entry (hroot ▸ inv.root_arrived) hwalk holds hsteps
  refine ⟨path, ?_, ?_⟩
  · rw [← hpath]
    apply walkEdges_congr <;> rfl
  · have htrace := placed.trace_eq shape
      (fun segment => numbered.pathNumber_eq color { pushed.exitRoot with }) hreal
    have hsegments : (D.withChordWeights color).segments path = D.segments path := by
      apply segments_congr <;> intros <;> rfl
    rw [hrun, hcode, htrace, hsegments, execInsts, List.nil_append, List.map_map]
    rfl

theorem exists_passes (hF : F.Uninstrumented) :
    ∃ bound exitRoot color, ∀ fuel, bound ≤ fuel → ∃ D' init counter,
      D.calculateSpanningTree fuel = some D' ∧
      D'.calculateChordIncrements fuel = some (D.withChordWeights color) ∧
      (D.withChordWeights color).pushInitialization fuel =
        some ((D.withChordWeights color).withInitializationMarks init) ∧
      ((D.withChordWeights color).withInitializationMarks init).pushCounters fuel =
        some ((D.withChordWeights color).withMarks init counter) ∧
      Pushed (D.withChordWeights color) exitRoot init counter ∧
      Start (live (D.withChordWeights color)
          ((D.withChordWeights color).withMarks init counter))
        ((D.withChordWeights color).withMarks init counter).unlinked F exitRoot ∧
      ((D.withChordWeights color).withMarks init counter).unlinked.pending < fuel := by
  obtain ⟨color, hpasses⟩ := numbered.passes_eq
  have shape := numbered.shape_withChordWeights color
  obtain ⟨bound, exitRoot, hexitRoot, hpush⟩ := shape.push_relocated
  refine ⟨max bound (D.unlinked.pending + 1), exitRoot, color, fun fuel hfuel => ?_⟩
  obtain ⟨fuel, rfl⟩ := Nat.exists_eq_add_one_of_ne_zero
    (Nat.ne_zero_of_lt (Nat.lt_of_lt_of_le (Nat.lt_add_one _)
      (Nat.le_trans (Nat.le_max_right _ _) hfuel)))
  obtain ⟨D', htree, hchords⟩ := hpasses fuel
  obtain ⟨init, counter, hinit, hcounter, pushed⟩ := hpush (fuel + 1) (by omega)
  -- neither the marks nor the increments change what there is to do
  have hpending : ((D.withChordWeights color).withMarks init
      counter).unlinked.pending < fuel + 1 := by
    change D.unlinked.pending < fuel + 1
    omega
  exact ⟨D', init, counter, htree, hchords, hinit, hcounter, pushed,
    numbered.start hF pushed, hpending⟩

theorem exists_runOnFunction (hF : F.Uninstrumented) (splitter : SplitCriticalEdge) :
    ∃ bound, ∀ fuel, bound ≤ fuel → ∃ F',
      runOnFunction splitter fuel D F = .ok F' ∧
      ∀ choices env steps, F.WalkOver F.Instrumentable F.entry choices →
        2 * choices.length + 1 ≤ steps →
        ∃ path, D.unlinked.walkEdges D.root choices = some path ∧
          F'.run F.numBlocks steps F.entry env choices =
            some (D.segmentNumbers path) := by
  obtain ⟨bound, exitRoot, color, hpasses⟩ := numbered.exists_passes hF
  have shape := numbered.shape_withChordWeights color
  refine ⟨bound, fun fuel hfuel => ?_⟩
  obtain ⟨D', init, counter, htree, hchords, hinit, hcounter, pushed, start, hpending⟩ :=
    hpasses fuel hfuel
  obtain ⟨st, G, hemission, ready, closed⟩ :=
    start.insertInstrumentation (numbered.not_hasInstrumentation color init counter)
      splitter hpending
  refine ⟨st.func, ?_, fun choices env steps hwalk hsteps => ?_⟩
  · rw [runOnFunction, htree, orError_some, ok_bind, hchords, orError_some, ok_bind,
      hinit, orError_some, ok_bind, hcounter, orError_some, ok_bind,
      shape.withMarks.links.unlinkPhony_eq]
    exact congrArg (· >>= _) hemission
  · exact numbered.run_walk pushed ⟨ready, closed⟩ hwalk env hsteps

end Numbered

end Dag

/-- Whatever the instrumented function `F'` logs along the walk are numbers of the
segments that the walk has completed. -/
def LogsCompletedSegments (D : Dag) (F F' : LlvmFunction) (choices : List Nat) :
    Prop :=
  ∀ path env steps log, D.unlinked.walkEdges D.root choices = some path →
    F'.run F.numBlocks steps F.entry env choices = some log →
    log.Sublist (D.segmentNumbers path)

/-- If every critical edge can be split, the instrumented function logs along every
walk the number of each of its segments, once and in order. -/
theorem runOnFunction_logs_segments {D : Dag} {F : LlvmFunction}
    (numbered : D.Numbered F) (hF : F.Uninstrumented)
    (hsplit : ∀ source target, target ∈ F.successors source →
      F.Instrumentable source target)
    (splitter : SplitCriticalEdge) :
    ∃ bound, ∀ fuel, bound ≤ fuel → ∃ F',
      runOnFunction splitter fuel D F = .ok F' ∧
      ∀ choices env steps, F.IsWalk F.entry choices →
        2 * choices.length + 1 ≤ steps →
        ∃ path, D.unlinked.walkEdges D.root choices = some path ∧
          F'.run F.numBlocks steps F.entry env choices =
            some (D.segmentNumbers path) := by
  obtain ⟨bound, hbound⟩ := numbered.exists_runOnFunction hF splitter
  refine ⟨bound, fun fuel hfuel => ?_⟩
  obtain ⟨F', hrun, hwalks⟩ := hbound fuel hfuel
  refine ⟨F', hrun, fun choices env steps hwalk hsteps => ?_⟩
  exact hwalks choices env steps
    (hwalk.mono fun source target hmem _ => hsplit source target hmem) hsteps

/-- A walk over edges that can be instrumented logs no wrong number, whatever other
edges the function has. -/
theorem runOnFunction_logs_completed_segments {D : Dag} {F : LlvmFunction}
    (numbered : D.Numbered F) (hF : F.Uninstrumented)
    (splitter : SplitCriticalEdge) :
    ∃ bound, ∀ fuel, bound ≤ fuel → ∃ F',
      runOnFunction splitter fuel D F = .ok F' ∧
      ∀ choices, F.WalkOver F.Instrumentable F.entry choices →
        LogsCompletedSegments D F F' choices ∧
        ∀ env steps, 2 * choices.length + 1 ≤ steps →
          ∃ path, D.unlinked.walkEdges D.root choices = some path ∧
            F'.run F.numBlocks steps F.entry env choices =
              some (D.segmentNumbers path) := by
  obtain ⟨bound, hbound⟩ := numbered.exists_runOnFunction hF splitter
  refine ⟨bound, fun fuel hfuel => ?_⟩
  obtain ⟨F', hrun, hwalks⟩ := hbound fuel hfuel
  refine ⟨F', hrun, fun choices hwalk => ⟨?_, fun env steps hsteps =>
    hwalks choices env steps hwalk hsteps⟩⟩
  intro path env steps log hpath hlog
  obtain ⟨path', hpath', hlog'⟩ := hwalks choices env
    (max steps (2 * choices.length + 1)) hwalk (Nat.le_max_right _ _)
  obtain rfl : path' = path := Option.some.inj (hpath'.symm.trans hpath)
  have hmore := F'.run_mono F.numBlocks
    (Nat.le_max_left steps (2 * choices.length + 1)) hlog
  rw [Option.some.inj (hmore.symm.trans hlog')]

/-- The passes and the emission come to an end without an error, that is without a
failed assertion, a missing PHI or a null path number, whichever critical edges cannot
be split. -/
theorem runOnFunction_never_asserts {D : Dag} {F : LlvmFunction}
    (numbered : D.Numbered F) (hF : F.Uninstrumented) (splitter : SplitCriticalEdge) :
    ∃ bound, ∀ fuel, bound ≤ fuel → ∃ F', runOnFunction splitter fuel D F = .ok F' := by
  obtain ⟨bound, hbound⟩ := numbered.exists_runOnFunction hF splitter
  refine ⟨bound, fun fuel hfuel => ?_⟩
  obtain ⟨F', hrun, _⟩ := hbound fuel hfuel
  exact ⟨F', hrun⟩

/-! Two functions: a `while` loop, and one with an indirect branch to a block that is
also entered from elsewhere. -/

instance (F : LlvmFunction) (source target : BlockId) :
    Decidable (F.isCriticalEdge source target) :=
  inferInstanceAs (Decidable (_ ∧ _))

instance (F : LlvmFunction) (source target : BlockId) :
    Decidable (F.Instrumentable source target) :=
  inferInstanceAs (Decidable (_ → _))

def splitCriticalEdge : SplitCriticalEdge where
  split F source succNum :=
    ((F.successors source)[succNum]?).bind fun target =>
      if (F.block target).isLandingPad = false ∧
          (F.block source).terminator ≠ .indirectbr ∧
          F.isCriticalEdge source target then
        some (F.withSplitEdge source succNum target)
      else none
  split_landingPad F source target succNum htarget hpad := by
    simp [htarget, hpad]
  split_critical F source target succNum htarget hpad hindirect hcritical := by
    simp [htarget, hpad, hindirect, hcritical]

def LlvmFunction.ofBlocks (blocks : List Block) : LlvmFunction where
  block b := (blocks[b]?).getD { terminator := .unreachable, successors := [] }
  numBlocks := blocks.length
  entry := 0

theorem LlvmFunction.ofBlocks_block {blocks : List Block} {b : BlockId}
    (hb : ¬ b < blocks.length) :
    (ofBlocks blocks).block b = { terminator := .unreachable, successors := [] } := by
  simp [ofBlocks, List.getElem?_eq_none (Nat.not_lt.mp hb)]

theorem LlvmFunction.ofBlocks_instrumentable {blocks : List Block}
    (h : ∀ b, b < blocks.length →
      ((ofBlocks blocks).block b).terminator ≠ .indirectbr ∧
        ((ofBlocks blocks).block b).isLandingPad = false)
    (source target : BlockId) : (ofBlocks blocks).Instrumentable source target := by
  have hblock : ∀ b, ((ofBlocks blocks).block b).terminator ≠ .indirectbr ∧
      ((ofBlocks blocks).block b).isLandingPad = false := by
    intro b
    by_cases hb : b < blocks.length
    · exact h b hb
    · rw [ofBlocks_block hb]
      decide
  exact fun _ => ⟨(hblock source).1, (hblock target).2⟩

theorem Dag.BallLarus.represents {D : Dag} {F : LlvmFunction} (shape : D.BallLarus)
    (block_exit : D.getBlock D.exit = none)
    (block : ∀ x, x < D.numNodes → x ≠ D.exit →
      ∃ b, b < F.numBlocks ∧ D.getBlock x = some b)
    (injective : ∀ x, x < D.numNodes → ∀ y, y < D.numNodes →
      D.getBlock x = D.getBlock y → x = y)
    (entry : D.getBlock D.root = some F.entry)
    (successors : ∀ x, x < D.numNodes → ∀ b ∈ D.getBlock x,
      F.successors b =
          (D.realSuccEdges x).filterMap (fun e => D.getBlock (D.target e)) ∧
        ((F.block b).terminator.leavesFunction = true ↔
          ∃ e ∈ D.realSuccEdges x, D.target e = D.exit))
    (exit_alone : ∀ e, e < D.numEdges → D.target e = D.exit →
      (D.type e).isPhony = false → D.realSuccEdges (D.source e) = [e]) :
    D.Represents F where
  block_exit := block_exit
  block := block
  block_injective x y b hx hy hb hb' := injective x hx y hy (hb.trans hb'.symm)
  entry := entry
  successors x b hx hb := (successors x hx b hb).1
  leaves x b hx hb := (successors x hx b hb).2
  exit_alone x e he htarget := by
    obtain ⟨hlinked, rfl⟩ := shape.mem_realSuccEdges.mp he
    exact exit_alone e hlinked.1 htarget hlinked.2

def whileLoopFunction : LlvmFunction :=
  .ofBlocks
    [ { terminator := .br, successors := [1] },
      { terminator := .br, successors := [2, 3] },
      { terminator := .br, successors := [1] },
      { terminator := .ret, successors := [] } ]

theorem whileLoop_numbered : Dag.whileLoop.Numbered whileLoopFunction where
  shape := Dag.whileLoop_ballLarus
  represents := Dag.whileLoop_ballLarus.represents (by decide) (by decide)
    (by decide) (by decide) (by decide) (by decide)
  cut_weight := by decide
  exitRoot_weight := by decide
  untouched := Dag.whileLoop_untouched
  unmarked := ⟨by decide, by decide⟩
  increment := by decide
  hasInstrumentation := by decide
  numbers := by decide

theorem whileLoopFunction_uninstrumented : whileLoopFunction.Uninstrumented := by
  unfold LlvmFunction.Uninstrumented
  decide

theorem whileLoopFunction_instrumentable (source target : BlockId) :
    whileLoopFunction.Instrumentable source target :=
  LlvmFunction.ofBlocks_instrumentable (by decide) source target

/-- One turn of the loop: the path into the body, and the path from the header on. -/
theorem runOnFunction_logs_segments_whileLoop :
    ∃ bound, ∀ fuel, bound ≤ fuel → ∃ F',
      runOnFunction splitCriticalEdge fuel Dag.whileLoop whileLoopFunction = .ok F' ∧
      ∀ env, F'.run 4 9 0 env [0, 0, 0, 1] = some [0#32, 3#32] := by
  obtain ⟨bound, hbound⟩ := runOnFunction_logs_segments whileLoop_numbered
    whileLoopFunction_uninstrumented
    (fun source target _ => whileLoopFunction_instrumentable source target)
    splitCriticalEdge
  refine ⟨bound, fun fuel hfuel => ?_⟩
  obtain ⟨F', hrun, hwalks⟩ := hbound fuel hfuel
  refine ⟨F', hrun, fun env => ?_⟩
  have hwalk : whileLoopFunction.IsWalk whileLoopFunction.entry [0, 0, 0, 1] :=
    ⟨by decide, 1, by decide, trivial, by decide, 2, by decide, trivial, by decide, 1,
      by decide, trivial, by decide, 3, by decide, trivial, rfl⟩
  obtain ⟨path, hpath, hlog⟩ := hwalks [0, 0, 0, 1] env 9 hwalk (by decide)
  obtain rfl : path = [0, 1, 3, 2, 4] :=
    Option.some.inj (hpath.symm.trans (by decide))
  exact hlog.trans (by decide)

/-- The blocks are entry, join, indirect branch and three returns; the edge from the
indirect branch to the join is critical. -/
def indirectBranchFunction : LlvmFunction :=
  .ofBlocks
    [ { terminator := .br, successors := [1, 2] },
      { terminator := .br, successors := [4, 5] },
      { terminator := .indirectbr, successors := [1, 3] },
      { terminator := .ret, successors := [] },
      { terminator := .ret, successors := [] },
      { terminator := .ret, successors := [] } ]

def indirectBranch : Dag :=
  Dag.ofEdges [some 0, none, some 1, some 2, some 3, some 4, some 5]
    [ { source := 0, target := 2 },
      { source := 0, target := 3, weight := 2 },
      { source := 3, target := 2 },
      { source := 3, target := 4, weight := 2 },
      { source := 2, target := 5 },
      { source := 2, target := 6, weight := 1 },
      { source := 4, target := 1 },
      { source := 5, target := 1 },
      { source := 6, target := 1 },
      { source := 1, target := 0 } ]
    0 1 5

theorem indirectBranch_ballLarus : indirectBranch.BallLarus where
  root_lt := by decide
  exit_lt := by decide
  root_ne_exit := by decide
  source_lt := by decide
  target_lt := by decide
  mem_succEdges := Dag.mem_succEdges_ofEdges
  mem_predEdges := Dag.mem_predEdges_ofEdges
  nodup_succEdges := Dag.nodup_succEdges_ofEdges
  nodup_predEdges := Dag.nodup_predEdges_ofEdges
  exitRoot := ⟨9, by decide⟩
  cut_target := by decide
  phonyRoot := by
    intro e he hcut
    exact absurd hcut (by revert e; decide)
  phonyExit := by
    intro e he hcut
    exact absurd hcut (by revert e; decide)
  phony_target := by
    intro r hr hphony
    exact absurd hphony (by revert r; decide)
  no_callPhony := by decide
  acyclic := ⟨fun x => [4, 0, 2, 3, 1, 1, 1].getD x 0, by
    rintro e ⟨he, hcut, hexit⟩
    revert e
    decide⟩
  from_root := by
    intro x hx _
    refine ⟨[[], [0, 4, 7], [0], [1], [1, 3], [0, 4], [0, 5]].getD x [], ?_⟩
    revert x
    decide
  to_exit := by
    intro x hx
    refine ⟨[[0, 4, 7], [], [4, 7], [3, 6], [6], [7], [8]].getD x [], ?_⟩
    revert x
    decide
  backedge_loop := by
    intro e he hback
    exact absurd hback (by revert e; decide)
  numberOfPaths_pos := by decide

theorem indirectBranch_numbered :
    indirectBranch.Numbered indirectBranchFunction where
  shape := indirectBranch_ballLarus
  represents := indirectBranch_ballLarus.represents (by decide) (by decide)
    (by decide) (by decide) (by decide) (by decide)
  cut_weight := by decide
  exitRoot_weight := by decide
  untouched := ⟨rfl, rfl, by decide⟩
  unmarked := ⟨by decide, by decide⟩
  increment := by decide
  hasInstrumentation := by decide
  numbers := by decide

theorem indirectBranchFunction_uninstrumented :
    indirectBranchFunction.Uninstrumented := by
  unfold LlvmFunction.Uninstrumented
  decide

theorem runOnFunction_never_asserts_indirectBranch :
    ¬ indirectBranchFunction.Instrumentable 2 1 ∧
      ∃ bound, ∀ fuel, bound ≤ fuel → ∃ F',
        runOnFunction splitCriticalEdge fuel indirectBranch indirectBranchFunction =
          .ok F' :=
  ⟨by decide, runOnFunction_never_asserts indirectBranch_numbered
    indirectBranchFunction_uninstrumented splitCriticalEdge⟩

/-- A walk that avoids the critical edge. -/
theorem runOnFunction_logs_completed_segments_indirectBranch :
    ∃ bound, ∀ fuel, bound ≤ fuel → ∃ F',
      runOnFunction splitCriticalEdge fuel indirectBranch indirectBranchFunction =
        .ok F' ∧
      LogsCompletedSegments indirectBranch indirectBranchFunction F' [1, 1] ∧
      ∀ env, F'.run 6 5 0 env [1, 1] = some [4#32] := by
  obtain ⟨bound, hbound⟩ := runOnFunction_logs_completed_segments
    indirectBranch_numbered indirectBranchFunction_uninstrumented splitCriticalEdge
  refine ⟨bound, fun fuel hfuel => ?_⟩
  obtain ⟨F', hrun, hwalks⟩ := hbound fuel hfuel
  have hwalk : indirectBranchFunction.WalkOver indirectBranchFunction.Instrumentable
      indirectBranchFunction.entry [1, 1] :=
    ⟨by decide, 2, by decide, by decide, by decide, 3, by decide, by decide, rfl⟩
  obtain ⟨hlogs, hexact⟩ := hwalks [1, 1] hwalk
  refine ⟨F', hrun, hlogs, fun env => ?_⟩
  obtain ⟨path, hpath, hlog⟩ := hexact env 5 (by decide)
  obtain rfl : path = [1, 3, 6] := Option.some.inj (hpath.symm.trans (by decide))
  exact hlog.trans (by decide)

/-- The walk over the critical edge takes the placeholder out of the PHI of the join
and logs it. -/
theorem indirectBranch_logs_placeholder :
    indirectBranch.Numbered indirectBranchFunction ∧
      indirectBranchFunction.Uninstrumented ∧
      indirectBranchFunction.IsWalk indirectBranchFunction.entry [1, 0, 0] ∧
      ∃ F', runOnFunction splitCriticalEdge 8 indirectBranch indirectBranchFunction =
          .ok F' ∧
        F'.run 6 4 0 ⟨fun _ => 0, fun _ => 0⟩ [1, 0, 0] = some [-1#32] ∧
        ¬ LogsCompletedSegments indirectBranch indirectBranchFunction F'
          [1, 0, 0] := by
  refine ⟨indirectBranch_numbered, indirectBranchFunction_uninstrumented,
    ⟨by decide, 2, by decide, trivial, by decide, 1, by decide, trivial, by decide, 4,
      by decide, trivial, rfl⟩, ?_⟩
  have hlog : (runOnFunction splitCriticalEdge 8 indirectBranch
      indirectBranchFunction).toOption.bind (fun F' =>
        F'.run 6 4 0 ⟨fun _ => 0, fun _ => 0⟩ [1, 0, 0]) = some [-1#32] := by
    decide +kernel
  cases hrun : runOnFunction splitCriticalEdge 8 indirectBranch
      indirectBranchFunction with
  | error error =>
      rw [hrun] at hlog
      contradiction
  | ok F' =>
      rw [hrun] at hlog
      refine ⟨F', rfl, hlog, fun hlogs => ?_⟩
      have hsublist := hlogs [1, 2, 4, 7] _ _ _ (by decide) hlog
      revert hsublist
      decide

end RrWorkbench.PathLogging
