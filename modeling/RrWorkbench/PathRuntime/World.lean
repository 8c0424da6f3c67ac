import RrWorkbench.Data.Run
import RrWorkbench.PathRuntime.Buffer

namespace RrWorkbench.PathRuntime

open RrWorkbench.Data

/-! Processes with threads that log paths, in any interleaving.  Threads end with the
destructors of their keys, processes fork and exit. -/

abbrev ProcessId := Nat

abbrev ThreadId := Nat

/-- A thread that ends first runs destructors, which may themselves log. -/
inductive ThreadStatus
  | alive
  | exiting
  | gone
  deriving DecidableEq, Repr

structure Thread where
  recordBuffer : Option Address := none
  finishBufferKey : Option Address := none
  status : ThreadStatus := .alive

/-- `exit()` runs the handlers in its caller; `inHandler` tells whether the caller is
in one of the application's. -/
inductive Phase
  | running
  | exiting (caller : ThreadId) (inHandler : Bool)
  | gone
  deriving DecidableEq, Repr

structure Process where
  memory : Address → Option PathRecords := fun _ => none
  threads : ThreadId → Option Thread
  initProcessOnce : Bool := false
  atforkDropBuffer : Bool := false
  keyFinishBuffer : Bool := false
  atexitHandlers : List Handler := []
  phase : Phase := .running

structure SysWrite where
  process : ProcessId
  thread : ThreadId
  records : List PathRecord

structure World where
  processes : ProcessId → Option Process
  output : List SysWrite := []

inductive Event
  /-- `llvm_increment_path_count(fn, path)`; a new buffer would be at `fresh`. -/
  | increment (p : ProcessId) (t : ThreadId) (fn : Address) (path : BitVec 32)
      (fresh : Address)
  | createThread (p : ProcessId) (t new : ThreadId)
  | exitThread (p : ProcessId) (t : ThreadId)
  /-- The destructor of `finish_buffer_key` is called in a thread that ends. -/
  | runDestructor (p : ProcessId) (t : ThreadId)
  | endThread (p : ProcessId) (t : ThreadId)
  | fork (p : ProcessId) (t : ThreadId) (child : ProcessId)
  /-- The application registers a handler. -/
  | atexit (p : ProcessId) (t : ThreadId)
  | exit (p : ProcessId) (t : ThreadId)
  /-- The handler registered last is called. -/
  | runHandler (p : ProcessId)
  | endProcess (p : ProcessId)
  deriving DecidableEq, Repr

namespace Process

def runtime (proc : Process) (thread : Thread) : Runtime where
  memory := proc.memory
  recordBuffer := thread.recordBuffer
  finishBufferKey := thread.finishBufferKey
  initProcessOnce := proc.initProcessOnce
  atforkDropBuffer := proc.atforkDropBuffer
  keyFinishBuffer := proc.keyFinishBuffer
  atexitHandlers := proc.atexitHandlers
  output := []

def view (proc : Process) (t : ThreadId) : Runtime :=
  proc.runtime ((proc.threads t).getD {})

def withRuntime (proc : Process) (t : ThreadId) (thread : Thread) (rt : Runtime) :
    Process :=
  { proc with
    memory := rt.memory
    threads := Function.update proc.threads t (some { thread with
      recordBuffer := rt.recordBuffer, finishBufferKey := rt.finishBufferKey })
    initProcessOnce := rt.initProcessOnce
    atforkDropBuffer := rt.atforkDropBuffer
    keyFinishBuffer := rt.keyFinishBuffer
    atexitHandlers := rt.atexitHandlers }

def setStatus (proc : Process) (t : ThreadId) (thread : Thread)
    (status : ThreadStatus) : Process :=
  { proc with
    threads := Function.update proc.threads t (some { thread with status := status }) }

/-- Whether thread `t` can run code of the application: the caller of `exit()` can
only do so in a handler. -/
def schedules (proc : Process) (t : ThreadId) : Bool :=
  match proc.phase with
  | .running => true
  | .exiting caller inHandler => t ≠ caller || inHandler
  | .gone => false

def runnable (proc : Process) (t : ThreadId) (thread : Thread) : Bool :=
  proc.schedules t && thread.status != .gone

def childPhase (proc : Process) (t : ThreadId) : Phase :=
  match proc.phase with
  | .exiting caller inHandler => if t = caller then .exiting caller inHandler else .running
  | _ => .running

def forkCopy (proc : Process) (t : ThreadId) (thread : Thread) : Process :=
  { proc with
    threads := fun other => if other = t then some thread else none
    phase := proc.childPhase t }

/-- The handler of `pthread_atfork` runs in the child before anything else. -/
def forkChild (proc : Process) (t : ThreadId) (thread : Thread) : Process :=
  let child := proc.forkCopy t thread
  if proc.atforkDropBuffer then
    child.withRuntime t thread (child.runtime thread).dropBuffer
  else child

end Process

namespace World

def setProcess (w : World) (p : ProcessId) (proc : Process) : World :=
  { w with processes := Function.update w.processes p (some proc) }

def act (w : World) (p : ProcessId) (proc : Process) (t : ThreadId) (thread : Thread)
    (call : Runtime → Option Runtime) : Option World :=
  (call (proc.runtime thread)).map fun rt =>
    { w.setProcess p (proc.withRuntime t thread rt) with
      output := w.output ++ rt.output.map fun records => ⟨p, t, records⟩ }

def stepThread (w : World) (p : ProcessId) (t : ThreadId)
    (step : Process → Thread → Option World) : Option World :=
  (w.processes p).bind fun proc => (proc.threads t).bind fun thread =>
    step proc thread

def runHandler (w : World) (p : ProcessId) (proc : Process) (caller : ThreadId) :
    Handler → Option World
  | .application =>
      some (w.setProcess p { proc with phase := .exiting caller true })
  | .finishMainThreadBufferHack =>
      let proc : Process := { proc with phase := .exiting caller false }
      (proc.threads caller).bind fun thread =>
        w.act p proc caller thread Runtime.finishMainThreadBufferHack

def initial : World where
  processes p :=
    if p = 0 then some { threads := fun t => if t = 0 then some {} else none }
    else none

def step (w : World) : Event → Option World
  | .increment p t fn path fresh =>
      w.stepThread p t fun proc thread =>
        if proc.runnable t thread ∧
            (thread.recordBuffer = none → (proc.memory fresh).isNone) then
          w.act p proc t thread (·.llvmIncrementPathCount fn path fresh)
        else none
  | .createThread p t new =>
      w.stepThread p t fun proc thread =>
        if proc.runnable t thread ∧ (proc.threads new).isNone then
          some (w.setProcess p
            { proc with threads := Function.update proc.threads new (some {}) })
        else none
  | .exitThread p t =>
      w.stepThread p t fun proc thread =>
        if proc.runnable t thread ∧ thread.status = .alive then
          some (w.setProcess p (proc.setStatus t thread .exiting))
        else none
  | .runDestructor p t =>
      w.stepThread p t fun proc thread =>
        if proc.runnable t thread ∧ thread.status = .exiting ∧
            proc.keyFinishBuffer ∧ thread.finishBufferKey.isSome then
          w.act p proc t thread Runtime.runDestructor
        else none
  | .endThread p t =>
      w.stepThread p t fun proc thread =>
        if proc.runnable t thread ∧ thread.status = .exiting then
          some (w.setProcess p (proc.setStatus t thread .gone))
        else none
  | .fork p t child =>
      w.stepThread p t fun proc thread =>
        if proc.runnable t thread ∧ (w.processes child).isNone then
          some (w.setProcess child (proc.forkChild t thread))
        else none
  | .atexit p t =>
      w.stepThread p t fun proc thread =>
        if proc.runnable t thread then
          some (w.setProcess p
            { proc with atexitHandlers := .application :: proc.atexitHandlers })
        else none
  | .exit p t =>
      w.stepThread p t fun proc thread =>
        if proc.runnable t thread ∧ proc.phase = .running then
          some (w.setProcess p { proc with phase := .exiting t false })
        else none
  | .runHandler p =>
      (w.processes p).bind fun proc =>
        match proc.phase, proc.atexitHandlers with
        | .exiting caller _, handler :: rest =>
            w.runHandler p { proc with atexitHandlers := rest } caller handler
        | _, _ => none
  | .endProcess p =>
      (w.processes p).bind fun proc =>
        match proc.phase, proc.atexitHandlers with
        | .exiting _ _, [] => some (w.setProcess p { proc with phase := .gone })
        | _, _ => none

def written (w : World) (p : ProcessId) (t : ThreadId) : List PathRecord :=
  (w.output.filter fun write => write.process = p ∧ write.thread = t).flatMap
    SysWrite.records

def buffered (w : World) (p : ProcessId) (t : ThreadId) : List PathRecord :=
  match w.processes p with
  | none => []
  | some proc => (proc.view t).buffered

end World

/-- The records that thread `t` of process `p` retires in a run.  A child, whose number
is new, retires none before the fork. -/
def retired (p : ProcessId) (t : ThreadId) (events : List Event) : List PathRecord :=
  events.filterMap fun
    | .increment p' t' fn path _ => if p' = p ∧ t' = t then some ⟨fn, path⟩ else none
    | _ => none

end RrWorkbench.PathRuntime
