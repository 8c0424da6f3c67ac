import RrWorkbench.Regtrace
import RrWorkbench.SeccompBpf

namespace RrWorkbench.Seccomptrace

open RrWorkbench.Data
open RrWorkbench.Bpf (SockFilter)
open RrWorkbench.SeccompBpf
open RrWorkbench.Regtrace

/-! `seccomptrace.c`, preloaded into the program that `regtrace.c` traces: its `puts`
installs the filter before the first line it writes. -/

inductive Call
  /-- `prctl(PR_SET_NO_NEW_PRIVS, 1, 0, 0, 0)` -/
  | setNoNewPrivs
  /-- `prctl(PR_SET_SECCOMP, SECCOMP_MODE_FILTER, &prog)` -/
  | setSeccomp (filter : List SockFilter)
  | write (fd : Nat) (text : String)
  /-- The `execve` that starts the program. -/
  | execve
  | other (nr : Nat)
  deriving DecidableEq, Repr

def Call.nr : Call → Nat
  | .setNoNewPrivs => 172
  | .setSeccomp _ => 172
  | .write _ _ => 4
  | .execve => 11
  | .other nr => nr

def ensureFilter (installed : Bool) : List Call :=
  if installed then []
  else [.setNoNewPrivs, .setSeccomp traceProcess, .write 1 "filter on\n"]

def puts (installed : Bool) (s : String) : List Call :=
  ensureFilter installed ++ [.write 1 s, .write 1 "\n"]

inductive Action
  | puts (s : String)
  | syscall (nr : Nat)
  deriving DecidableEq, Repr

def calls (installed : Bool) : List Action → List Call
  | [] => []
  | .puts s :: rest => puts installed s ++ calls true rest
  | .syscall nr :: rest => .other nr :: calls installed rest

/-- The calls made so far, of which the last may not be over, and those to come;
`installed` is the filter that the kernel has taken. -/
structure State where
  world : World
  installed : Option (List SockFilter)
  made : List Call
  pending : List Call
  deriving DecidableEq, Repr

inductive Move
  | event (event : Event)
  /-- The filter is asked about the next call. -/
  | filtered (d : SeccompData)
  /-- A `prctl` of `ensure_filter` ends with an error; `err` makes the calls `nrs`. -/
  | fails (event : Event) (nrs : List Nat)

def Move.isFork : Move → Bool
  | .event e => e.isFork
  | .filtered _ | .fails _ _ => false

/-- The calls in which a fork is reported: `fork`, `vfork`, `clone` and `clone3`. -/
def forkCalls : InsideEvent → List Nat
  | .exec => []
  | .fork => [2, 120, 435]
  | .clone => [120, 435]
  | .vfork | .vforkDone => [190, 120, 435]

namespace State

/-- `execvp` may try other names first. -/
def initial (attempts : List Nat) (actions : List Action) : State where
  world := World.initial
  installed := none
  made := []
  pending := attempts.map .other ++ .execve :: calls false actions

def moved (s : State) (event : Event) : Option State :=
  (s.world.step event).map fun world => { s with world := world }

def taken (s : State) : Option State :=
  if s.world.position = .user then
    match s.pending with
    | [] => none
    | call :: rest => some { s with made := s.made ++ [call], pending := rest }
  else some s

def InCall (s : State) (nr : Nat) : Prop := ∃ call ∈ s.made.getLast?, call.nr = nr

instance (s : State) (nr : Nat) : Decidable (s.InCall nr) :=
  inferInstanceAs (Decidable (∃ call ∈ s.made.getLast?, call.nr = nr))

/-- What the kernel takes from the `prctl`. -/
def accepted (s : State) : Option (List SockFilter) :=
  match s.made.getLast? with
  | some (.setSeccomp filter) => installFilter filter
  | _ => none

def verdict (s : State) (d : SeccompData) : Option Bpf.Result :=
  s.installed.bind fun filter => Bpf.run filter d.load (filter.length + 1) ⟨0, 0⟩

/-- The call is one in which the event is reported.  The program has no `execve` of its
own that succeeds. -/
def reports (s : State) (event : InsideEvent) : Bool :=
  match s.made.getLast? with
  | some .execve => event = .exec
  | some (.other nr) => nr ∈ forkCalls event
  | _ => false

def succeeds (s : State) : Bool :=
  match s.made.getLast? with
  | some (.setSeccomp _) => s.world.filter
  | _ => true

def mayFail (s : State) : Bool :=
  match s.made.getLast? with
  | some .setNoNewPrivs => true
  | some (.setSeccomp _) => !s.world.filter
  | _ => false

def step (s : State) : Move → Option State
  | .event .enterSilently => s.taken.bind (moved · .enterSilently)
  -- the program's filter leaves no other answer
  | .filtered d =>
      s.taken.bind fun s =>
        if s.InCall d.nr.toNat ∧ s.verdict d = some (.returned seccompRetTrace) then
          s.moved .seccomp
        else none
  | .event .seccomp => none
  | .event (.entryStop regs) =>
      s.taken.bind fun s =>
        if s.InCall regs.origEax then s.moved (.entryStop regs) else none
  | .event .installFilter =>
      s.accepted.bind fun filter =>
        (s.moved .installFilter).map fun s => { s with installed := some filter }
  | .event (.inside event) => if s.reports event then s.moved (.inside event) else none
  | .event .leaveSilently =>
      if s.succeeds ∧ s.made.getLast? ≠ some .execve then s.moved .leaveSilently else none
  | .event (.exitStop regs) =>
      if s.succeeds ∧ s.InCall regs.origEax then s.moved (.exitStop regs) else none
  | .event event => s.moved event
  | .fails .leaveSilently nrs =>
      if s.mayFail then
        (s.moved .leaveSilently).map fun s => { s with pending := nrs.map .other }
      else none
  | .fails (.exitStop regs) nrs =>
      if s.mayFail ∧ s.InCall regs.origEax then
        (s.moved (.exitStop regs)).map fun s => { s with pending := nrs.map .other }
      else none
  | .fails _ _ => none

end State

/-! What the tracer logs for the system calls: which stop it takes it for, and the
number in the registers. -/

def loggedCalls (log : List LogEntry) : List (Label × Nat) :=
  log.filterMap fun
    | .syscall label regs status =>
        if wstopsig status = syscallPseudosig then some (label, regs.origEax) else none
    | _ => none

theorem loggedCalls_append (log entries : List LogEntry) :
    loggedCalls (log ++ entries) = loggedCalls log ++ loggedCalls entries :=
  List.filterMap_append

def callStops : Event → List (Label × Nat)
  | .entryStop regs => [(.entering, regs.origEax)]
  | .exitStop regs => [(.exiting, regs.origEax)]
  | _ => []

def Adds (regs : Regs) (log next : List LogEntry) : Prop :=
  ∃ entries, next = log ++ entries ∧
    loggedCalls entries = (loggedStops entries).map fun label => (label, regs.origEax)

section Adds

variable {regs : Regs} {log next : List LogEntry}

theorem Adds.refl (regs : Regs) (log : List LogEntry) : Adds regs log log :=
  ⟨[], (List.append_nil log).symm, rfl⟩

theorem Adds.trans {last : List LogEntry} (first : Adds regs log next)
    (second : Adds regs next last) : Adds regs log last := by
  obtain ⟨entries, rfl, hentries⟩ := first
  obtain ⟨more, rfl, hmore⟩ := second
  refine ⟨entries ++ more, List.append_assoc .., ?_⟩
  rw [loggedCalls_append, loggedStops_append, List.map_append, hentries, hmore]

end Adds

/-- Of the quiet calls only the `execve` is seen, when it returns. -/
def quietStops : Call → List (Label × Nat)
  | .execve => [(.exiting, Call.execve.nr)]
  | _ => []

def tracedStops (call : Call) : List (Label × Nat) :=
  [(.entering, call.nr), (.exiting, call.nr)]

def fullLog (quiet traced : List Call) : List (Label × Nat) :=
  quiet.flatMap quietStops ++ traced.flatMap tracedStops

def Call.isWrite : Call → Bool
  | .write _ _ => true
  | _ => false

def guarded : List Call → Bool
  | [] => true
  | .setSeccomp _ :: _ => true
  | call :: rest => !call.isWrite && guarded rest

def TracesAll (program : List Call) : Prop :=
  ∀ filter, .setSeccomp filter ∈ program → filter = traceProcess

theorem TracesAll.append {first second : List Call} (hfirst : TracesAll first)
    (hsecond : TracesAll second) : TracesAll (first ++ second) := by
  intro filter hmem
  rcases List.mem_append.mp hmem with hmem | hmem
  · exact hfirst filter hmem
  · exact hsecond filter hmem

namespace State

def log (s : State) : List (Label × Nat) := loggedCalls s.world.tracer.log

inductive Inside (s : State) (quiet traced : List Call) : Prop
  | silent (before : List Call) (call : Call) (waits : s.world.tracer.Waits)
      (quiet_eq : quiet = before ++ [call]) (traced_eq : traced = [])
      (log_eq : s.log = fullLog before [])
  | exec (before : List Call) (follows : s.world.tracer.Follows .exitingSyscall)
      (quiet_eq : quiet = before ++ [.execve]) (traced_eq : traced = [])
      (log_eq : s.log = fullLog before [])
  | traced (before : List Call) (call : Call)
      (follows : s.world.tracer.Follows .exitingSyscall)
      (traced_eq : traced = before ++ [call])
      (log_eq : s.log = fullLog quiet before ++ [(.entering, call.nr)])

/-- The log has all stops of the calls but perhaps some of the last one's. -/
inductive LoggedUpTo (s : State) (quiet traced : List Call) : Prop
  | all (log_eq : s.log = fullLog quiet traced)
  | quiet (before : List Call) (call : Call) (quiet_eq : quiet = before ++ [call])
      (traced_eq : traced = []) (log_eq : s.log = fullLog before [])
  | reported (before : List Call) (call : Call) (traced_eq : traced = before ++ [call])
      (log_eq : s.log = fullLog quiet before)
  | entered (before : List Call) (call : Call) (traced_eq : traced = before ++ [call])
      (log_eq : s.log = fullLog quiet before ++ [(.entering, call.nr)])

def Logged (s : State) (quiet traced : List Call) : Prop :=
  match s.world.position with
  | .user => s.log = fullLog quiet traced
  | .trapped => ∃ before call, traced = before ++ [call] ∧ s.log = fullLog quiet before
  | .entered => s.Inside quiet traced
  | .dying | .dead => s.LoggedUpTo quiet traced

structure Inv (s : State) (quiet traced : List Call) : Prop where
  ok : ∃ stops, s.world.Ok stops
  made : s.made = quiet ++ traced
  off : s.world.filter = false → traced = []
  on : s.world.filter = true → s.installed = some traceProcess ∧
    ∃ before filter, quiet = before ++ [.setSeccomp filter]
  logged : s.Logged quiet traced
  unwritten : ∀ call ∈ quiet, call.isWrite = false
  filters : TracesAll (s.made ++ s.pending)
  pending : s.world.filter = false →
    (s.world.position ≠ .user ∧ ∃ filter, s.made.getLast? = some (.setSeccomp filter)) ∨
      guarded s.pending = true

structure Moved (s next : State) (event : Event) : Prop where
  step : s.world.advance event = some next.world
  installed : next.installed = s.installed
  made : next.made = s.made
  pending : next.pending = s.pending
  ok : ∃ stops, next.world.Ok stops
  log : next.log = s.log ++ callStops event

section Step

variable {s next : State} {quiet traced : List Call}

theorem Moved.log_eq {event : Event} (moved : s.Moved next event)
    (hstops : callStops event = []) : next.log = s.log := by
  rw [moved.log, hstops, List.append_nil]

theorem Inv.inStep (inv : s.Inv quiet traced) : s.world.InStep :=
  inv.ok.elim fun _ ok => ok.inStep

end Step

end State

end RrWorkbench.Seccomptrace
