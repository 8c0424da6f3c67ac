import RrWorkbench.PathLogging.Decode

namespace RrWorkbench.PathLogging

open RrWorkbench.Data

/-! `runOnModule`: the pass over the functions of a module, with the table and the
totals that it keeps on the way. -/

structure ModuleFunction where
  /-- `ConstantExpr::getBitCast(&F, voidPtr)`, the first argument of the calls. -/
  address : Nat
  isDeclaration : Bool := false
  body : LlvmFunction

inductive ProfilingStorageType
  | array
  | hash
  deriving DecidableEq, Repr

/-- An entry of `ftInit`; `counterArray` is the length of the array, if there is
one. -/
structure FunctionEntry where
  type : ProfilingStorageType
  arraySize : BitVec 32
  counterArray : Option Nat
  deriving DecidableEq, Repr

structure PathProfiler where
  functionNumber : Nat := 0
  ftInit : List FunctionEntry := []
  totalPaths : Nat := 0
  maxPaths : Nat := 0
  deriving DecidableEq, Repr

def FunctionEntry.ofPaths (numberOfPaths : Nat) : FunctionEntry where
  type := if numberOfPaths ≤ hashThreshhold then .array else .hash
  arraySize := createIncrementConstant numberOfPaths
  counterArray := if numberOfPaths ≤ hashThreshhold then some numberOfPaths else none

namespace PathProfiler

def addFunction (profiler : PathProfiler) (numberOfPaths : Nat) : PathProfiler where
  functionNumber := profiler.functionNumber + 1
  ftInit := profiler.ftInit ++ [.ofPaths numberOfPaths]
  totalPaths := profiler.totalPaths + numberOfPaths
  maxPaths := max profiler.maxPaths numberOfPaths

theorem foldl_addFunction (counts : List Nat) (profiler : PathProfiler) :
    counts.foldl addFunction profiler =
      { functionNumber := profiler.functionNumber + counts.length
        ftInit := profiler.ftInit ++ counts.map .ofPaths
        totalPaths := profiler.totalPaths + counts.sum
        maxPaths := counts.foldl max profiler.maxPaths } := by
  induction counts generalizing profiler with
  | nil => simp
  | cons count counts ih =>
      simp only [List.foldl_cons, ih, addFunction, List.length_cons, List.map_cons,
        List.sum_cons, List.append_assoc, List.singleton_append, mk.injEq, true_and,
        and_true]
      omega

def report (profiler : PathProfiler) : String :=
  "INST: fns " ++ toString profiler.functionNumber ++ " paths " ++
    toString profiler.totalPaths ++ " max " ++ toString profiler.maxPaths

end PathProfiler

/-- `buildDag` is what `BallLarusDag` and `calculatePathNumbers` make of a function. -/
def runOnModule (buildDag : LlvmFunction → Dag) (splitter : SplitCriticalEdge)
    (fuel : Nat) :
    PathProfiler → List ModuleFunction →
      Except EmitError (List ModuleFunction × PathProfiler)
  | profiler, [] => .ok ([], profiler)
  | profiler, f :: rest => do
      if f.isDeclaration then
        let result ← runOnModule buildDag splitter fuel profiler rest
        .ok (f :: result.1, result.2)
      else
        let body ← runOnFunction splitter fuel (buildDag f.body) f.body
        let result ← runOnModule buildDag splitter fuel
          (profiler.addFunction (buildDag f.body).numberOfPaths) rest
        .ok ({ f with body := body } :: result.1, result.2)

def definitions (functions : List ModuleFunction) : List ModuleFunction :=
  functions.filter fun f => !f.isDeclaration

def pathCounts (buildDag : LlvmFunction → Dag) (functions : List ModuleFunction) :
    List Nat :=
  (definitions functions).map fun f => (buildDag f.body).numberOfPaths

structure ModuleFunction.Instruments (buildDag : LlvmFunction → Dag)
    (f f' : ModuleFunction) : Prop where
  address : f'.address = f.address
  isDeclaration : f'.isDeclaration = f.isDeclaration
  declaration : f.isDeclaration = true → f' = f
  logs : f.isDeclaration = false → (buildDag f.body).Logs f.body f'.body

structure ModuleReady (buildDag : LlvmFunction → Dag)
    (functions : List ModuleFunction) : Prop where
  numbered : ∀ f ∈ functions, f.isDeclaration = false →
    (buildDag f.body).Numbered f.body
  uninstrumented : ∀ f ∈ functions, f.isDeclaration = false → f.body.Uninstrumented

section RunOnModule

variable {buildDag : LlvmFunction → Dag} {functions : List ModuleFunction}

theorem ModuleReady.tail {f : ModuleFunction}
    (ready : ModuleReady buildDag (f :: functions)) :
    ModuleReady buildDag functions where
  numbered g hg := ready.numbered g (List.mem_cons_of_mem _ hg)
  uninstrumented g hg := ready.uninstrumented g (List.mem_cons_of_mem _ hg)

theorem ModuleReady.exists_runOnModule (ready : ModuleReady buildDag functions)
    (splitter : SplitCriticalEdge) :
    ∃ bound, ∀ fuel, bound ≤ fuel → ∃ functions',
      List.Forall₂ (ModuleFunction.Instruments buildDag) functions functions' ∧
      ∀ profiler, runOnModule buildDag splitter fuel profiler functions =
        .ok (functions', (pathCounts buildDag functions).foldl
          PathProfiler.addFunction profiler) := by
  induction functions with
  | nil => exact ⟨0, fun fuel _ => ⟨[], .nil, fun _ => rfl⟩⟩
  | cons f functions ih =>
      obtain ⟨bound, hbound⟩ := ih ready.tail
      cases hdeclaration : f.isDeclaration with
      | true =>
          refine ⟨bound, fun fuel hfuel => ?_⟩
          obtain ⟨functions', hinstruments, hrun⟩ := hbound fuel hfuel
          refine ⟨f :: functions', .cons ⟨rfl, rfl, fun _ => rfl, ?_⟩ hinstruments,
            fun profiler => ?_⟩
          · rw [hdeclaration]
            exact fun h => absurd h (by decide)
          · rw [runOnModule, if_pos hdeclaration, hrun]
            simp [pathCounts, definitions, hdeclaration, bind, Except.bind]
      | false =>
          obtain ⟨bound', hbound'⟩ :=
            (ready.numbered f List.mem_cons_self hdeclaration).exists_logs
              (ready.uninstrumented f List.mem_cons_self hdeclaration) splitter
          refine ⟨max bound bound', fun fuel hfuel => ?_⟩
          obtain ⟨functions', hinstruments, hrun⟩ :=
            hbound fuel (Nat.le_trans (Nat.le_max_left _ _) hfuel)
          obtain ⟨body, hbody, logs⟩ :=
            hbound' fuel (Nat.le_trans (Nat.le_max_right _ _) hfuel)
          refine ⟨{ f with body := body } :: functions',
            .cons ⟨rfl, rfl, ?_, fun _ => logs⟩ hinstruments, fun profiler => ?_⟩
          · rw [hdeclaration]
            exact fun h => absurd h (by decide)
          · rw [runOnModule, if_neg (by rw [hdeclaration]; decide), hbody]
            simp [pathCounts, definitions, hdeclaration, hrun, bind, Except.bind]

theorem forall₂_definitions {functions' : List ModuleFunction}
    (h : List.Forall₂ (ModuleFunction.Instruments buildDag) functions functions') :
    List.Forall₂ (ModuleFunction.Instruments buildDag) (definitions functions)
      (definitions functions') := by
  induction h with
  | nil => exact .nil
  | @cons f f' functions functions' head _ ih =>
      have hsame := head.isDeclaration
      simp only [definitions, List.filter_cons, hsame]
      cases f.isDeclaration with
      | true => exact ih
      | false => exact .cons head ih

end RunOnModule

theorem FunctionEntry.arraySize_ofPaths {count : Nat} (hcount : count < 2 ^ 32) :
    (FunctionEntry.ofPaths count).arraySize.toNat = count := by
  simp only [ofPaths, createIncrementConstant, BitVec.toNat_ofInt]
  omega

theorem FunctionEntry.map_arraySize_ofPaths {counts : List Nat}
    (hcounts : ∀ count ∈ counts, count < 2 ^ 32) :
    (counts.map FunctionEntry.ofPaths).map (·.arraySize.toNat) = counts := by
  rw [List.map_map]
  exact (List.map_congr_left fun count hcount =>
    arraySize_ofPaths (hcounts count hcount)).trans (List.map_id counts)

/-- The numbers that `F'` logs along walks through `F` stay within the entry. -/
structure FunctionEntry.Bounds (entry : FunctionEntry) (F F' : LlvmFunction) : Prop where
  type : entry.type = .hash
  lt : ∀ choices env steps log, F.WalkOver F.Instrumentable F.entry choices →
    F'.run F.numBlocks steps F.entry env choices = some log →
    ∀ number ∈ log, number.toNat < entry.arraySize.toNat

theorem Dag.PathNumbers.bounds {D : Dag} {F F' : LlvmFunction} {numPaths : NodeId → Nat}
    (numbers : D.PathNumbers numPaths) (shape : D.BallLarus)
    (hcount : D.numberOfPaths < 2 ^ 32) (logs : D.Logs F F') :
    (FunctionEntry.ofPaths D.numberOfPaths).Bounds F F' where
  type := if_neg (Nat.not_le.mpr shape.numberOfPaths_pos)
  lt choices env steps log walk hlog number hnumber := by
    obtain ⟨path, hpath, _, rfl⟩ := logs.exists_path walk hlog
    rw [FunctionEntry.arraySize_ofPaths hcount]
    exact numbers.lt_numberOfPaths shape (Nat.le_of_lt hcount) hpath number hnumber

/-- The table has one entry for each function with a body, in the order of the module,
and the entry bounds the numbers that the function logs along walks over edges that can be
instrumented.  The totals that the pass prints are those of the table. -/
theorem runOnModule_table_bounds_logs {buildDag : LlvmFunction → Dag}
    {functions : List ModuleFunction} (ready : ModuleReady buildDag functions)
    (numbers : ∀ f ∈ definitions functions,
      ∃ numPaths, (buildDag f.body).PathNumbers numPaths)
    (hcount : ∀ f ∈ definitions functions, (buildDag f.body).numberOfPaths < 2 ^ 32)
    (splitter : SplitCriticalEdge) :
    ∃ bound, ∀ fuel, bound ≤ fuel → ∃ functions' profiler,
      runOnModule buildDag splitter fuel {} functions = .ok (functions', profiler) ∧
      profiler.ftInit.length = (definitions functions).length ∧
      profiler.report = "INST: fns " ++ toString profiler.ftInit.length ++ " paths " ++
        toString (profiler.ftInit.map (·.arraySize.toNat)).sum ++ " max " ++
        toString ((profiler.ftInit.map (·.arraySize.toNat)).foldl max 0) ∧
      ∀ (i : Nat) f, (definitions functions)[i]? = some f → ∃ f' entry,
        (definitions functions')[i]? = some f' ∧ profiler.ftInit[i]? = some entry ∧
        f'.address = f.address ∧ entry.Bounds f.body f'.body := by
  obtain ⟨bound, hbound⟩ := ready.exists_runOnModule splitter
  refine ⟨bound, fun fuel hfuel => ?_⟩
  obtain ⟨functions', hinstruments, hrun⟩ := hbound fuel hfuel
  have hcounts : ∀ count ∈ pathCounts buildDag functions, count < 2 ^ 32 := by
    intro count hmem
    obtain ⟨f, hf, rfl⟩ := List.mem_map.mp hmem
    exact hcount f hf
  refine ⟨functions', _, hrun {}, ?_⟩
  rw [PathProfiler.foldl_addFunction, PathProfiler.report]
  simp only [List.nil_append, Nat.zero_add, List.length_map,
    FunctionEntry.map_arraySize_ofPaths hcounts, true_and]
  refine ⟨List.length_map _, fun i f hf => ?_⟩
  have hmem := List.mem_of_getElem? hf
  obtain ⟨hlt, hget⟩ := List.getElem?_eq_some_iff.mp hf
  have hdefinitions := forall₂_definitions hinstruments
  have hlt' : i < (definitions functions').length := hdefinitions.length_eq ▸ hlt
  have instruments := hdefinitions.get hlt hlt'
  simp only [List.get_eq_getElem, hget] at instruments
  obtain ⟨hfunction, hbody⟩ := List.mem_filter.mp hmem
  have hdeclaration : f.isDeclaration = false := by simpa using hbody
  obtain ⟨numPaths, hnumbers⟩ := numbers f hmem
  refine ⟨_, _, List.getElem?_eq_getElem hlt', ?_, instruments.address,
    hnumbers.bounds (ready.numbered f hfunction hdeclaration).shape (hcount f hmem)
      (instruments.logs hdeclaration)⟩
  rw [pathCounts, List.map_map, List.getElem?_map, hf]
  rfl

def whileLoopModule : List ModuleFunction :=
  [ { address := 4096, body := whileLoopFunction },
    { address := 8192, isDeclaration := true, body := .ofBlocks [] },
    { address := 12288, body := whileLoopFunction } ]

theorem whileLoopModule_ready :
    ModuleReady (fun _ => Dag.whileLoop) whileLoopModule := by
  have hbody : ∀ f ∈ whileLoopModule, f.isDeclaration = false →
      f.body = whileLoopFunction := by
    simp [whileLoopModule]
  refine ⟨fun f hf hdeclaration => ?_, fun f hf hdeclaration => ?_⟩
  · rw [hbody f hf hdeclaration]
    exact whileLoop_numbered
  · rw [hbody f hf hdeclaration]
    exact whileLoopFunction_uninstrumented

theorem runOnModule_table_bounds_logs_whileLoopModule :
    ∃ bound, ∀ fuel, bound ≤ fuel → ∃ functions' profiler,
      runOnModule (fun _ => Dag.whileLoop) splitCriticalEdge fuel {} whileLoopModule =
        .ok (functions', profiler) ∧
      profiler.ftInit.length = 2 ∧
      ∃ f' entry, (definitions functions')[1]? = some f' ∧ f'.address = 12288 ∧
        profiler.ftInit[1]? = some entry ∧ entry.Bounds whileLoopFunction f'.body := by
  obtain ⟨bound, hbound⟩ := runOnModule_table_bounds_logs whileLoopModule_ready
    (fun _ _ => ⟨_, whileLoop_pathNumbers⟩) (fun _ _ => by decide) splitCriticalEdge
  refine ⟨bound, fun fuel hfuel => ?_⟩
  obtain ⟨functions', profiler, hrun, hlength, _, hentries⟩ := hbound fuel hfuel
  obtain ⟨f', entry, hfunction, hentry, haddress, bounds⟩ := hentries 1 _ rfl
  exact ⟨functions', profiler, hrun, hlength, f', entry, hfunction, haddress, hentry, bounds⟩

end RrWorkbench.PathLogging
