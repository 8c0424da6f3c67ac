import RrWorkbench.PathLogging.Module
import RrWorkbench.PathProgram.Reader
import RrWorkbench.PathRuntime.Logging

namespace RrWorkbench.PathProgram

open RrWorkbench.Data
open RrWorkbench.PathLogging
open RrWorkbench.PathRuntime

/-! Programs of instrumented functions on top of the runtime.  Threads call functions,
which log while they run and may call others in between.  An activation is left at the
end of its function or, by an exception, `longjmp` or the end of the thread, before it. -/

/-- What a thread does besides the runtime.  `inherited` is what its ancestors had
logged when its process was forked from theirs, `completed` the walks that have logged
their last number; `cutShort` tells whether the thread has left an activation between two
of its numbers. -/
structure ThreadState where
  stack : List Activation := []
  inherited : List PathRecord := []
  completed : List (Address × List Nat) := []
  cutShort : Bool := false

structure State where
  world : World := World.initial
  threads : ProcessId → ThreadId → ThreadState := fun _ _ => {}

inductive Action
  /-- A call of `fn` that will take the successors `choices`. -/
  | call (p : ProcessId) (t : ThreadId) (fn : Address) (choices : List Nat) (env : Env)
      (steps : Nat)
  /-- The innermost activation logs its next number. -/
  | log (p : ProcessId) (t : ThreadId) (fresh : Address)
  | ret (p : ProcessId) (t : ThreadId)
  /-- The innermost activation is left wherever it is. -/
  | unwind (p : ProcessId) (t : ThreadId)
  /-- Anything else that happens to the processes and threads. -/
  | event (e : Event)

def findFunction (functions : List ModuleFunction) (fn : Address) :
    Option ModuleFunction :=
  (definitions functions).find? (·.address = fn)

def dagOf (buildDag : LlvmFunction → Dag) (functions : List ModuleFunction)
    (fn : Address) : Option Dag :=
  (findFunction functions fn).map fun f => buildDag f.body

namespace State

def setThread (s : State) (p : ProcessId) (t : ThreadId) (thread : ThreadState) : State :=
  { s with
    threads := fun p' t' => if p' = p ∧ t' = t then thread else s.threads p' t' }

def canRun (s : State) (p : ProcessId) (t : ThreadId) : Bool :=
  ((s.world.processes p).bind fun proc =>
    (proc.threads t).map fun thread => proc.runnable t thread).getD false

def log (s : State) (p : ProcessId) (t : ThreadId) : List PathRecord :=
  s.world.written p t ++ s.world.buffered p t

def forkThread (s : State) (p : ProcessId) (t : ThreadId) : ThreadState :=
  { s.threads p t with inherited := (s.threads p t).inherited ++ s.log p t }

def called (s : State) (p : ProcessId) (t : ThreadId) (fn : Address)
    (choices : List Nat) (pending : List (BitVec 32)) : State :=
  s.setThread p t { s.threads p t with
    stack := ⟨fn, choices, pending, false⟩ :: (s.threads p t).stack }

def callFunction (s : State) (p : ProcessId) (t : ThreadId) (f f' : ModuleFunction)
    (choices : List Nat) (env : Env) (steps : Nat) : Option State :=
  if s.canRun p t ∧ f.body.IsWalk f.body.entry choices then
    (f'.body.run f.body.numBlocks steps f.body.entry env choices).map
      (s.called p t f.address choices)
  else none

def logged (s : State) (p : ProcessId) (t : ThreadId) (fn : Address)
    (choices : List Nat) (rest : List (BitVec 32)) (below : List Activation)
    (world : World) : State :=
  { s.setThread p t
      { s.threads p t with
        stack := ⟨fn, choices, rest, true⟩ :: below
        completed := (s.threads p t).completed ++
          if rest = [] then [(fn, choices)] else [] } with
    world := world }

def logNumber (s : State) (p : ProcessId) (t : ThreadId) (fresh : Address) :
    Option State :=
  match (s.threads p t).stack with
  | ⟨fn, choices, number :: rest, _⟩ :: below =>
      (s.world.step (.increment p t fn number fresh)).map
        (s.logged p t fn choices rest below)
  | _ => none

def returnFrom (s : State) (p : ProcessId) (t : ThreadId) : Option State :=
  match (s.threads p t).stack with
  | ⟨_, _, [], _⟩ :: below =>
      some (s.setThread p t { s.threads p t with stack := below })
  | _ => none

def unwindFrom (s : State) (p : ProcessId) (t : ThreadId) : Option State :=
  match (s.threads p t).stack with
  | [] => none
  | a :: below =>
      some (s.setThread p t
        { s.threads p t with
          stack := below
          cutShort := (s.threads p t).cutShort || a.midway })

def runEvent (s : State) (e : Event) : Option State :=
  (s.world.step e).bind fun world =>
    match e with
    -- the calls of the runtime are those of the activations
    | .increment .. => none
    | .fork p t child =>
        some { s.setThread child t (s.forkThread p t) with world := world }
    | _ => some { s with world := world }

def step (functions functions' : List ModuleFunction) (s : State) :
    Action → Option State
  | .call p t fn choices env steps =>
      (findFunction functions fn).bind fun f =>
        (findFunction functions' fn).bind fun f' =>
          s.callFunction p t f f' choices env steps
  | .log p t fresh => s.logNumber p t fresh
  | .ret p t => s.returnFrom p t
  | .unwind p t => s.unwindFrom p t
  | .event e => s.runEvent e

end State

/-! Finding the functions of a module, before and after the pass. -/

/-- A module with all that the log needs: LLVM has numbered the paths, the numbers fit
into 32 bits, and every edge can be instrumented. -/
structure Traceable (buildDag : LlvmFunction → Dag) (functions : List ModuleFunction) :
    Prop extends ModuleReady buildDag functions where
  numbers : ∀ f ∈ functions, f.isDeclaration = false →
    ∃ numPaths, (buildDag f.body).PathNumbers numPaths
  count : ∀ f ∈ functions, f.isDeclaration = false →
    (buildDag f.body).numberOfPaths ≤ 2 ^ 32
  instrumentable : ∀ f ∈ functions, f.isDeclaration = false → ∀ source target,
    target ∈ f.body.successors source → f.body.Instrumentable source target

def WalkPath (D : Dag) (choices : List Nat) (path : List EdgeId) : Prop :=
  D.Path D.IsRealEdge D.root path D.exit ∧ D.choicesOf path = choices

section Find

variable {buildDag : LlvmFunction → Dag} {functions functions' : List ModuleFunction}
  {fn : Address} {f : ModuleFunction}

theorem findFunction_eq_some (hfind : findFunction functions fn = some f) :
    f ∈ functions ∧ f.isDeclaration = false ∧ f.address = fn := by
  have haddress := List.find?_some hfind
  obtain ⟨hmem, hbody⟩ := List.mem_filter.mp (List.mem_of_find?_eq_some hfind)
  exact ⟨hmem, by simpa using hbody, by simpa using haddress⟩

theorem exists_findFunction
    (h : List.Forall₂ (ModuleFunction.Instruments buildDag) functions functions')
    (hfind : findFunction functions fn = some f) :
    ∃ f', findFunction functions' fn = some f' ∧ f.Instruments buildDag f' := by
  have hdefinitions := forall₂_definitions h
  rw [findFunction] at hfind ⊢
  generalize definitions functions = before, definitions functions' = after
    at hdefinitions hfind ⊢
  induction hdefinitions with
  | nil => contradiction
  | @cons g g' rest rest' head tail ih =>
      rw [List.find?_cons] at hfind ⊢
      rw [head.address]
      split at hfind
      · cases hfind
        exact ⟨g', rfl, head⟩
      · exact ih hfind

theorem Traceable.readable (traceable : Traceable buildDag functions) (fn : Address)
    (D : Dag) (hdag : dagOf buildDag functions fn = some D) : Readable D := by
  obtain ⟨f, hfind, rfl⟩ := Option.map_eq_some_iff.mp hdag
  obtain ⟨hmem, hbody, _⟩ := findFunction_eq_some hfind
  obtain ⟨numPaths, numbers⟩ := traceable.numbers f hmem hbody
  intro segment hpath
  exact numbers.segmentOfNumber_pathNumber (traceable.numbered f hmem hbody).shape
    (traceable.count f hmem hbody) hpath

theorem Traceable.waits (traceable : Traceable buildDag functions)
    (hfind : findFunction functions fn = some f) {f' : ModuleFunction}
    (instruments : f.Instruments buildDag f') {choices : List Nat} {env : Env}
    {steps : Nat} {pending : List (BitVec 32)}
    (walk : f.body.IsWalk f.body.entry choices)
    (hrun : f'.body.run f.body.numBlocks steps f.body.entry env choices =
      some pending) :
    Waits (dagOf buildDag functions) ⟨f.address, choices, pending, false⟩ [] := by
  obtain ⟨hmem, hbody, haddress⟩ := findFunction_eq_some hfind
  obtain ⟨numPaths, numbers⟩ := traceable.numbers f hmem hbody
  have walk' := walk.mono fun source target htarget _ =>
    traceable.instrumentable f hmem hbody source target htarget
  obtain ⟨path, hpath, rfl, rfl⟩ := (instruments.logs hbody).exists_path walk' hrun
  refine waits_of_path numbers (traceable.numbered f hmem hbody).shape ?_ hpath
  rw [dagOf, haddress, hfind]
  rfl

theorem Traceable.exists_run (traceable : Traceable buildDag functions)
    (hfind : findFunction functions fn = some f) {f' : ModuleFunction}
    (instruments : f.Instruments buildDag f') {choices : List Nat}
    (walk : f.body.IsWalk f.body.entry choices) (env : Env) :
    ∃ path, WalkPath (buildDag f.body) choices path ∧
      (buildDag f.body).segmentNumbers path ≠ [] ∧
      f'.body.run f.body.numBlocks (2 * choices.length + 1) f.body.entry env choices =
        some ((buildDag f.body).segmentNumbers path) := by
  obtain ⟨hmem, hbody, _⟩ := findFunction_eq_some hfind
  obtain ⟨numPaths, numbers⟩ := traceable.numbers f hmem hbody
  have walk' := walk.mono fun source target htarget _ =>
    traceable.instrumentable f hmem hbody source target htarget
  obtain ⟨path, hpath, hchoices, hrun⟩ :=
    instruments.logs hbody choices env _ walk' (Nat.le_refl _)
  refine ⟨path, ⟨hpath, hchoices⟩, ?_, hrun⟩
  obtain ⟨segment, rest, cut⟩ :=
    (traceable.numbered f hmem hbody).shape.exists_cut numbers hpath
  rw [Dag.segmentNumbers, cut.segments]
  exact List.cons_ne_nil _ _

end Find

/-! The invariant: the reader knows of each thread that has not cut an activation short
what it has completed, and of each activation on its stack what it has logged. -/

def Reads (dag : Address → Option Dag) (thread : ThreadState) (log : List PathRecord) :
    Prop :=
  ∃ opened, readLog dag (thread.inherited ++ log) = some ⟨opened, thread.completed⟩ ∧
    Opened dag thread.stack opened

namespace State

structure Ok (dag : Address → Option Dag) (s : State) : Prop where
  world : s.world.Ok
  absent : ∀ p, s.world.processes p = none → ∀ t, s.log p t = []
  reads : ∀ p t, (s.threads p t).cutShort = false →
    Reads dag (s.threads p t) (s.log p t)

variable {dag : Address → Option Dag} {s s' : State} {p p' : ProcessId}
  {t t' : ThreadId}

theorem setThread_threads (thread : ThreadState) :
    (s.setThread p t thread).threads p' t' =
      if p' = p ∧ t' = t then thread else s.threads p' t' := rfl

theorem setThread_self (thread : ThreadState) :
    (s.setThread p t thread).threads p t = thread := by
  simp [setThread]

theorem Ok.setThread (ok : s.Ok dag) {thread : ThreadState}
    (reads : thread.cutShort = false → Reads dag thread (s.log p t)) :
    (s.setThread p t thread).Ok dag where
  world := ok.world
  absent := ok.absent
  reads p' t' := by
    rw [setThread_threads]
    split
    · obtain ⟨rfl, rfl⟩ := ‹p' = p ∧ t' = t›
      exact reads
    · exact ok.reads p' t'

/-- The world takes a step, and the thread that logs is known to the reader. -/
theorem Ok.of_step (ok : s.Ok dag) {e : Event} {world : World}
    (hstep : s.world.step e = some world) {threads : ProcessId → ThreadId → ThreadState}
    (reads : ∀ p t, (threads p t).cutShort = false →
      Reads dag (threads p t) (s.log p t ++ retired p t [e])) :
    (⟨world, threads⟩ : State).Ok dag where
  world := (ok.world.logs_of_step hstep).ok
  absent p hp t := by
    obtain ⟨q, hq, hother⟩ := (World.stepped_of_step hstep).exists_process
    have hne : p ≠ q := fun h => hq (h ▸ hp)
    rw [log, (ok.world.logs_of_step hstep).log, (hother p hne).2, List.append_nil]
    exact ok.absent p ((hother p hne).1.symm.trans hp) t
  reads p t := by
    rw [log, (ok.world.logs_of_step hstep).log]
    exact reads p t

theorem Ok.callFunction {buildDag : LlvmFunction → Dag}
    {functions : List ModuleFunction} (traceable : Traceable buildDag functions)
    (ok : s.Ok (dagOf buildDag functions)) {fn : Address} {f f' : ModuleFunction}
    (hfind : findFunction functions fn = some f)
    (instruments : f.Instruments buildDag f') {choices : List Nat} {env : Env}
    {steps : Nat} (h : s.callFunction p t f f' choices env steps = some s') :
    s'.Ok (dagOf buildDag functions) := by
  obtain ⟨⟨_, walk⟩, h⟩ := Option.ite_none_right_eq_some.mp h
  obtain ⟨pending, hrun, rfl⟩ := Option.map_eq_some_iff.mp h
  refine ok.setThread fun hwhole => ?_
  obtain ⟨opened, hread, hopened⟩ := ok.reads p t hwhole
  exact ⟨opened, hread, .cons (traceable.waits hfind instruments walk hrun) hopened⟩

theorem Ok.logNumber (ok : s.Ok dag) (readable : ∀ fn D, dag fn = some D → Readable D)
    {fresh : Address} (h : s.logNumber p t fresh = some s') : s'.Ok dag := by
  unfold State.logNumber at h
  split at h
  next fn choices number rest started below hstack =>
    obtain ⟨world, hstep, rfl⟩ := Option.map_eq_some_iff.mp h
    refine ok.of_step hstep fun p' t' => ?_
    rw [retired_increment, setThread_threads]
    by_cases hthread : p' = p ∧ t' = t
    · obtain ⟨rfl, rfl⟩ := hthread
      intro hwhole
      rw [if_pos ⟨rfl, rfl⟩] at hwhole
      obtain ⟨opened, hread, hopened⟩ := ok.reads p' t' hwhole
      rw [hstack] at hopened
      cases hopened with
      | @cons _ _ part opened head tail =>
          obtain ⟨part', hnext, waits⟩ := head.read readable rfl opened
            (s.threads p' t').completed
          have hsame : p' = p' ∧ t' = t' := ⟨rfl, rfl⟩
          rw [if_pos hsame, if_pos hsame]
          refine ⟨part' ++ opened, ?_, .cons waits tail⟩
          rw [← List.append_assoc]
          exact readLog_append dag hread (run_cons.mpr ⟨_, hnext, rfl⟩)
    · rw [if_neg hthread, if_neg hthread, List.append_nil]
      exact ok.reads p' t'
  next => contradiction

theorem Ok.returnFrom (ok : s.Ok dag) (h : s.returnFrom p t = some s') : s'.Ok dag := by
  unfold State.returnFrom at h
  split at h
  next fn choices started below hstack =>
    cases h
    refine ok.setThread fun hwhole => ?_
    obtain ⟨opened, hread, hopened⟩ := ok.reads p t hwhole
    rw [hstack] at hopened
    cases hopened with
    | @cons _ _ part opened head tail =>
        obtain rfl : part = [] := head.eq_nil (Bool.and_false started)
        exact ⟨opened, hread, tail⟩
  next => contradiction

theorem Ok.unwindFrom (ok : s.Ok dag) (h : s.unwindFrom p t = some s') : s'.Ok dag := by
  unfold State.unwindFrom at h
  split at h
  next => contradiction
  next a below hstack =>
    cases h
    refine ok.setThread fun hwhole => ?_
    obtain ⟨hwhole, hmidway⟩ := Bool.or_eq_false_iff.mp hwhole
    obtain ⟨opened, hread, hopened⟩ := ok.reads p t hwhole
    rw [hstack] at hopened
    cases hopened with
    | @cons _ _ part opened head tail =>
        obtain rfl : part = [] := head.eq_nil hmidway
        exact ⟨opened, hread, tail⟩

theorem Ok.runEvent (ok : s.Ok dag) {e : Event} (h : s.runEvent e = some s') :
    s'.Ok dag := by
  obtain ⟨world, hstep, h⟩ := Option.bind_eq_some_iff.mp h
  have hkeep : (∀ p t, retired p t [e] = []) → ({ s with world := world } : State).Ok dag := by
    intro hretired
    refine ok.of_step hstep fun p t => ?_
    rw [hretired, List.append_nil]
    exact ok.reads p t
  cases e with
  | increment => contradiction
  | fork p t child =>
      cases h
      have hchild : s.world.processes child = none := by
        cases World.stepped_of_step hstep
        assumption
      refine ok.of_step hstep fun p' t' => ?_
      rw [setThread_threads]
      by_cases hthread : p' = child ∧ t' = t
      · obtain ⟨rfl, rfl⟩ := hthread
        rw [if_pos ⟨rfl, rfl⟩, ok.absent p' hchild t']
        intro hwhole
        obtain ⟨opened, hread, hopened⟩ := ok.reads p t' hwhole
        refine ⟨opened, ?_, hopened⟩
        exact (congrArg (readLog dag) (List.append_nil _)).trans hread
      · rw [if_neg hthread]
        intro hwhole
        exact (ok.reads p' t' hwhole).imp fun opened h => by simpa [retired] using h
  | createThread | exitThread | runDestructor | endThread | atexit | exit | runHandler
  | endProcess =>
      cases h
      exact hkeep fun _ _ => rfl

theorem Ok.initial : ({} : State).Ok dag where
  world := World.initial_ok
  absent p _ t := World.initial_buffered p t
  reads p t _ := by
    refine ⟨[], ?_, .nil⟩
    rw [show ({} : State).log p t = [] from World.initial_buffered p t]
    rfl

/-- What one action of any thread preserves. -/
theorem Ok.step {buildDag : LlvmFunction → Dag}
    {functions functions' : List ModuleFunction}
    (traceable : Traceable buildDag functions)
    (h : List.Forall₂ (ModuleFunction.Instruments buildDag) functions functions')
    (ok : s.Ok (dagOf buildDag functions)) {action : Action}
    (hstep : s.step functions functions' action = some s') :
    s'.Ok (dagOf buildDag functions) := by
  cases action with
  | call p t fn choices env steps =>
      obtain ⟨f, hfind, hstep⟩ := Option.bind_eq_some_iff.mp hstep
      obtain ⟨f', hfind', hcall⟩ := Option.bind_eq_some_iff.mp hstep
      obtain ⟨g, hg, instruments⟩ := exists_findFunction h hfind
      obtain rfl : g = f' := Option.some.inj (hg.symm.trans hfind')
      exact ok.callFunction traceable hfind instruments hcall
  | log p t fresh => exact ok.logNumber traceable.readable hstep
  | ret p t => exact ok.returnFrom hstep
  | unwind p t => exact ok.unwindFrom hstep
  | event e => exact ok.runEvent hstep

end State

/-! A call that is not interrupted. -/

namespace State

def Ready (s : State) (p : ProcessId) (t : ThreadId) (fresh : Address) : Prop :=
  ∃ proc thread, s.world.processes p = some proc ∧ proc.threads t = some thread ∧
    proc.runnable t thread = true ∧
    (thread.recordBuffer = none → proc.memory fresh = none)

variable {s : State} {p : ProcessId} {t : ThreadId} {fresh : Address}

theorem Ready.canRun (ready : s.Ready p t fresh) : s.canRun p t = true := by
  obtain ⟨proc, thread, hproc, hthread, hrunnable, _⟩ := ready
  simp [State.canRun, hproc, hthread, hrunnable]

theorem Ready.exists_increment (ready : s.Ready p t fresh) (ok : s.world.Ok)
    (fn : Address) (number : BitVec 32) :
    ∃ world, s.world.step (.increment p t fn number fresh) = some world ∧ world.Ok ∧
      (∀ threads, (⟨world, threads⟩ : State).Ready p t fresh) ∧
      World.SameElsewhere p t s.world world ∧
      world.written p t ++ world.buffered p t = s.log p t ++ [⟨fn, number⟩] := by
  obtain ⟨proc, thread, hproc, hthread, hrunnable, hfresh⟩ := ready
  obtain ⟨world, hstep⟩ :=
    ok.exists_increment hproc hthread hrunnable fn number hfresh
  have logs := ok.logs_of_step hstep
  refine ⟨world, hstep, logs.ok, fun threads => ?_, ok.sameElsewhere_of_increment hstep, ?_⟩
  · cases World.stepped_of_step hstep with
    | increment hproc' hthread' hfresh' hact =>
        obtain rfl := Option.some.inj (hproc.symm.trans hproc')
        obtain rfl := Option.some.inj (hthread.symm.trans hthread')
        obtain ⟨rt, hrt, hprocesses, _⟩ := World.act_eq_some hact
        refine ⟨proc.withRuntime t thread rt, _, ?_, Function.update_self .., hrunnable,
          fun hnone => ?_⟩
        · exact (hprocesses p).trans World.setProcess_self
        · exact absurd hnone (Runtime.llvmIncrementPathCount_recordBuffer
            (ok.runtime hproc hthread) hfresh hrt)
  · rw [logs.log, retired_increment, if_pos ⟨rfl, rfl⟩]
    rfl

/-- The innermost activation logs all its numbers, one after the other. -/
theorem Ready.exists_logs (functions functions' : List ModuleFunction) {fn : Address}
    {choices : List Nat} {below : List Activation} {pending : List (BitVec 32)}
    {started : Bool} (ready : s.Ready p t fresh) (ok : s.world.Ok) (hpending : pending ≠ [])
    (hstack : (s.threads p t).stack = ⟨fn, choices, pending, started⟩ :: below) :
    ∃ s', run (State.step functions functions') s
        (List.replicate pending.length (.log p t fresh)) = some s' ∧
      s'.threads = (s.logged p t fn choices [] below s'.world).threads ∧
      World.SameElsewhere p t s.world s'.world ∧
      s'.log p t = s.log p t ++ pending.map (⟨fn, ·⟩) := by
  induction pending generalizing s started with
  | nil => exact absurd rfl hpending
  | cons number rest ih =>
      obtain ⟨world, hstep, ok', ready', same, hlog⟩ := ready.exists_increment ok fn number
      have hnumber : s.logNumber p t fresh =
          some (s.logged p t fn choices rest below world) := by
        simp only [logNumber, hstack, hstep, Option.map_some]
      by_cases hrest : rest = []
      · subst hrest
        exact ⟨_, run_cons.mpr ⟨_, hnumber, rfl⟩, rfl, same, hlog⟩
      · obtain ⟨s', hrun, hthreads, same', hlog'⟩ :=
          ih (s := s.logged p t fn choices rest below world) (ready' _) ok' hrest
            (congrArg ThreadState.stack (setThread_self _))
        refine ⟨s', run_cons.mpr ⟨_, hnumber, hrun⟩, hthreads.trans ?_, same.trans same', ?_⟩
        · funext p' t'
          simp only [logged, setThread_threads]
          by_cases hthread : p' = p ∧ t' = t
          · simp [hthread, hrest]
          · simp [hthread]
        · rw [hlog', State.log, logged, hlog, List.append_assoc]
          rfl

theorem ok_of_run {buildDag : LlvmFunction → Dag}
    {functions functions' : List ModuleFunction}
    (traceable : Traceable buildDag functions)
    (h : List.Forall₂ (ModuleFunction.Instruments buildDag) functions functions')
    {actions : List Action} (hrun : run (State.step functions functions') {} actions = some s) :
    s.Ok (dagOf buildDag functions) := by
  apply run_invariant (P := fun _ s => s.Ok (dagOf buildDag functions)) hrun .initial
  intro before middle action next _ ok hstep
  exact ok.step traceable h hstep

end State

/-- The outer walk goes round the loop once and calls the function again on the way. -/
example : readLog (dagOf (fun _ => Dag.whileLoop) whileLoopModule)
    [⟨4096, 0⟩, ⟨4096, 1⟩, ⟨4096, 3⟩] =
      some ⟨[], [(4096, [0, 1]), (4096, [0, 0, 0, 1])]⟩ := by decide

/-- Left by an exception after its first number, the inner walk is in the way. -/
example : readLog (dagOf (fun _ => Dag.whileLoop) whileLoopModule)
    [⟨12288, 1⟩, ⟨4096, 1⟩, ⟨12288, 3⟩] = none := by decide

theorem whileLoopModule_traceable :
    Traceable (fun _ => Dag.whileLoop) whileLoopModule where
  toModuleReady := whileLoopModule_ready
  numbers _ _ _ := ⟨_, whileLoop_pathNumbers⟩
  count _ _ _ := by decide
  instrumentable := by
    intro f hf hbody source target _
    simp only [whileLoopModule, List.mem_cons, List.not_mem_nil, or_false] at hf
    rcases hf with rfl | rfl | rfl
    · exact whileLoopFunction_instrumentable source target
    · contradiction
    · exact whileLoopFunction_instrumentable source target

/-- In every reachable state a thread that can run may call any function along any walk
through it.  The call logs the numbers of the walk's segments, returns, and is completed;
nothing is different for the other threads. -/
theorem program_calls_complete {buildDag : LlvmFunction → Dag}
    {functions : List ModuleFunction} (traceable : Traceable buildDag functions)
    (splitter : SplitCriticalEdge) :
    ∃ bound, ∀ fuel, bound ≤ fuel → ∃ functions' profiler,
      runOnModule buildDag splitter fuel {} functions = .ok (functions', profiler) ∧
      ∀ actions s, run (State.step functions functions') {} actions = some s →
        ∀ p t fresh fn f choices env, s.Ready p t fresh →
          findFunction functions fn = some f → f.body.IsWalk f.body.entry choices →
          ∃ path numbers s', WalkPath (buildDag f.body) choices path ∧
            numbers = (buildDag f.body).segmentNumbers path ∧
            run (State.step functions functions') s
              (.call p t fn choices env (2 * choices.length + 1) ::
                (List.replicate numbers.length (.log p t fresh) ++ [.ret p t])) =
              some s' ∧
            s'.threads = (s.setThread p t { s.threads p t with
              completed := (s.threads p t).completed ++ [(fn, choices)] }).threads ∧
            s'.log p t = s.log p t ++ numbers.map (⟨fn, ·⟩) ∧
            World.SameElsewhere p t s.world s'.world := by
  obtain ⟨bound, hbound⟩ := traceable.exists_runOnModule splitter
  refine ⟨bound, fun fuel hfuel => ?_⟩
  obtain ⟨functions', hinstruments, hpass⟩ := hbound fuel hfuel
  refine ⟨functions', _, hpass {}, ?_⟩
  intro actions s hrun p t fresh fn f choices env ready hfind walk
  have ok := State.ok_of_run traceable hinstruments hrun
  obtain ⟨f', hfind', instruments⟩ := exists_findFunction hinstruments hfind
  obtain ⟨path, hpath, hne, hnumbers⟩ :=
    traceable.exists_run hfind instruments walk env
  generalize hsegments : (buildDag f.body).segmentNumbers path = numbers at hne hnumbers
  have hcall : s.step functions functions'
      (.call p t fn choices env (2 * choices.length + 1)) =
        some (s.called p t fn choices numbers) := by
    obtain ⟨_, _, rfl⟩ := findFunction_eq_some hfind
    simp [State.step, hfind, hfind', State.callFunction, ready.canRun, walk, hnumbers]
  obtain ⟨s', hlogs, hthreads, same, hlog⟩ := State.Ready.exists_logs functions functions'
    (s := s.called p t fn choices numbers) ready ok.world hne
    (congrArg ThreadState.stack (State.setThread_self _))
  have hthread : s'.threads p t = { s.threads p t with
      stack := ⟨fn, choices, [], true⟩ :: (s.threads p t).stack
      completed := (s.threads p t).completed ++ [(fn, choices)] } := by
    rw [hthreads]
    simp [State.logged, State.called, State.setThread]
  have hreturn : s'.returnFrom p t = some (s'.setThread p t
      { s'.threads p t with stack := (s.threads p t).stack }) := by
    simp only [State.returnFrom, hthread]
  refine ⟨path, numbers, _, hpath, hsegments.symm,
    run_cons.mpr ⟨_, hcall, run_concat.mpr ⟨s', hlogs, hreturn⟩⟩, ?_, hlog, same⟩
  funext p' t'
  simp only [State.setThread_threads, hthread]
  by_cases hsame : p' = p ∧ t' = t
  · simp [hsame]
  · simp [hsame, hthreads, State.logged, State.called, State.setThread]

/-- The first thread goes round the loop once. -/
theorem program_calls_complete_whileLoopModule :
    ∃ bound, ∀ fuel, bound ≤ fuel → ∃ functions' profiler,
      runOnModule (fun _ => Dag.whileLoop) splitCriticalEdge fuel {} whileLoopModule =
        .ok (functions', profiler) ∧
      ∀ env, ∃ actions s,
        run (State.step whileLoopModule functions') {} (.call 0 0 4096 [0, 0, 0, 1] env 9 ::
          actions) = some s ∧
        (s.threads 0 0).completed = [(4096, [0, 0, 0, 1])] := by
  obtain ⟨bound, hbound⟩ :=
    program_calls_complete whileLoopModule_traceable splitCriticalEdge
  refine ⟨bound, fun fuel hfuel => ?_⟩
  obtain ⟨functions', profiler, hpass, hcalls⟩ := hbound fuel hfuel
  refine ⟨functions', profiler, hpass, fun env => ?_⟩
  obtain ⟨_, _, s, _, _, hrun, hthreads, _⟩ := hcalls [] {} rfl 0 0 100 4096
    { address := 4096, body := whileLoopFunction } [0, 0, 0, 1] env
    ⟨_, _, rfl, rfl, rfl, fun _ => rfl⟩ rfl (by decide)
  refine ⟨_, s, hrun, ?_⟩
  rw [hthreads, State.setThread_self]
  rfl

end RrWorkbench.PathProgram
