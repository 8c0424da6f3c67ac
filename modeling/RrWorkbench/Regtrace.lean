import RrWorkbench.Data.Run

namespace RrWorkbench.Regtrace

open RrWorkbench.Data

/-! `regtrace.c`: the loop of `trace`, and the stops of a tracee as the kernel reports
them to it. -/

def sigtrap : Nat := 5

/-- `SYSCALL_PSEUDOSIG`, that is `0x80 | SIGTRAP`. -/
def syscallPseudosig : Nat := 0x85

def ptraceEventExec : Nat := 4

/-! The parts of a wait status. -/

/-- `(0xFF0000 & status) >> 16` -/
def ptraceEvent (status : Nat) : Nat := status / 0x10000 % 0x100

def wtermsig (status : Nat) : Nat := status % 0x80

def wifexited (status : Nat) : Bool := wtermsig status == 0

def wexitstatus (status : Nat) : Nat := status / 0x100 % 0x100

def wifsignaled (status : Nat) : Bool :=
  decide (0 < wtermsig status) && decide (wtermsig status < 0x7f)

def wifstopped (status : Nat) : Bool := status % 0x100 == 0x7f

def wstopsig (status : Nat) : Nat := status / 0x100 % 0x100

structure Regs where
  origEax : Nat
  eax : Nat
  ebx : Nat
  ecx : Nat
  edx : Nat
  esi : Nat
  edi : Nat
  ebp : Nat
  eip : Nat
  deriving DecidableEq, Repr

inductive State
  | trappingSeccomp
  | enteringSyscall
  | exitingSyscall
  deriving DecidableEq, Repr

/-- `use_filter` is 1. -/
def startState : State := .trappingSeccomp

inductive Resume
  | cont
  | syscall
  | singlestep
  deriving DecidableEq, Repr

inductive Label
  | entering
  | exiting
  deriving DecidableEq, Repr

inductive LogEntry
  | resumed (how : Resume)
  | ptraceEvent (event status : Nat)
  | exitedNormally (status : Nat)
  | terminated (sig : Nat)
  | stoppedBySignal (sig : Nat)
  | syscall (label : Label) (regs : Regs) (status : Nat)
  deriving DecidableEq, Repr

inductive Outcome
  | tracing
  | returned (value : Nat)
  | aborted
  deriving DecidableEq, Repr

/-- `resumes` are the requests to resume the tracee since its last stop. -/
structure Tracer where
  state : State
  resumes : List Resume
  log : List LogEntry
  outcome : Outcome
  deriving DecidableEq, Repr

namespace Tracer

def logged (t : Tracer) (entry : LogEntry) : Tracer := { t with log := t.log ++ [entry] }

def resume (t : Tracer) : Tracer :=
  let how := if t.state = .trappingSeccomp then Resume.cont else .syscall
  { t with resumes := t.resumes ++ [how], log := t.log ++ [.resumed how] }

def initial : Tracer :=
  resume { state := startState, resumes := [], log := [], outcome := .tracing }

def label (t : Tracer) : Label :=
  if t.state = .enteringSyscall then .entering else .exiting

def handleStop (t : Tracer) (sig status : Nat) (regs : Regs) : Tracer :=
  if sig ≠ syscallPseudosig ∧ sig ≠ sigtrap then
    resume { t.logged (.stoppedBySignal sig) with resumes := [.singlestep] }
  else if sig = syscallPseudosig then
    match t.state with
    | .trappingSeccomp =>
        { t.logged (.syscall t.label regs status) with outcome := .aborted }
    | .enteringSyscall =>
        resume { t.logged (.syscall t.label regs status) with state := .exitingSyscall }
    | .exitingSyscall =>
        resume { t.logged (.syscall t.label regs status) with state := startState }
  else resume (t.logged (.syscall t.label regs status))

/-- The loop from one return of `waitpid` to the next call of it. -/
def handle (t : Tracer) (status : Nat) (regs : Regs) : Tracer :=
  let t := { t with resumes := [] }
  if ptraceEvent status ≠ 0 then
    resume
      { t.logged (.ptraceEvent (ptraceEvent status) status) with
        state :=
          if ptraceEvent status = ptraceEventExec then .exitingSyscall
          else .enteringSyscall }
  else if wifexited status then
    { t.logged (.exitedNormally (wexitstatus status)) with
      outcome := .returned (wexitstatus status) }
  else if wifsignaled status then
    { t.logged (.terminated (wtermsig status)) with
      outcome := .returned (wtermsig status) }
  else if wifstopped status = false then { t with outcome := .aborted }
  else t.handleStop (wstopsig status) status regs

end Tracer

/-! The tracee.  How it was resumed decides whether it stops at the entry and at the
exit of a syscall; after a signal there were two requests, and either may be the one
that took effect. -/

inductive Position
  /-- Between syscalls. -/
  | user
  /-- Before the entry of a syscall that the filter has reported. -/
  | trapped
  /-- Inside a syscall, past its entry. -/
  | entered
  | dying
  | dead
  deriving DecidableEq, Repr

inductive InsideEvent
  | exec
  | fork
  | vfork
  | clone
  | vforkDone
  deriving DecidableEq, Repr

def InsideEvent.number : InsideEvent → Nat
  | .fork => 1
  | .vfork => 2
  | .clone => 3
  | .exec => ptraceEventExec
  | .vforkDone => 5

inductive Event
  | enterSilently
  | installFilter
  | leaveSilently
  | seccomp
  | entryStop (regs : Regs)
  | inside (event : InsideEvent)
  | exitStop (regs : Regs)
  | signalStop (sig : Nat)
  | trapStop (regs : Regs)
  | exiting
  | exited (code : Nat)
  | killed (sig : Nat)
  deriving DecidableEq, Repr

structure World where
  position : Position
  filter : Bool
  tracer : Tracer
  deriving DecidableEq, Repr

def stopStatus (event sig : Nat) : Nat := event * 0x10000 + sig * 0x100 + 0x7f

def Regs.unread : Regs :=
  { origEax := 0, eax := 0, ebx := 0, ecx := 0, edx := 0, esi := 0, edi := 0, ebp := 0,
    eip := 0 }

namespace World

def initial : World := { position := .user, filter := false, tracer := .initial }

/-- The tracee may have been resumed without a stop at the next syscall boundary. -/
def Untraced (w : World) : Prop := ∃ how ∈ w.tracer.resumes, how ≠ .syscall

instance (w : World) : Decidable w.Untraced :=
  inferInstanceAs (Decidable (∃ how ∈ w.tracer.resumes, how ≠ .syscall))

def report (w : World) (position : Position) (status : Nat) (regs : Regs) : World :=
  { w with position := position, tracer := w.tracer.handle status regs }

def advance (w : World) : Event → Option World
  | .enterSilently =>
      if ((w.position = .user ∧ w.filter = false) ∨ w.position = .trapped) ∧ w.Untraced then
        some { w with position := .entered }
      else none
  | .installFilter =>
      if w.position = .entered then some { w with filter := true } else none
  | .leaveSilently =>
      if w.position = .entered ∧ w.Untraced then some { w with position := .user }
      else none
  | .seccomp =>
      if w.position = .user ∧ w.filter = true then
        some (w.report .trapped (stopStatus 7 sigtrap) .unread)
      else none
  | .entryStop regs =>
      if ((w.position = .user ∧ w.filter = false) ∨ w.position = .trapped) ∧
          .syscall ∈ w.tracer.resumes then
        some (w.report .entered (stopStatus 0 syscallPseudosig) regs)
      else none
  | .inside event =>
      if w.position = .entered then
        some (w.report .entered (stopStatus event.number sigtrap) .unread)
      else none
  | .exitStop regs =>
      if w.position = .entered ∧ .syscall ∈ w.tracer.resumes then
        some (w.report .user (stopStatus 0 syscallPseudosig) regs)
      else none
  | .signalStop sig =>
      if w.position = .user ∧ 0 < sig ∧ sig < 0x80 ∧ sig ≠ sigtrap then
        some (w.report .user (stopStatus 0 sig) .unread)
      else none
  | .trapStop regs =>
      if w.position = .user then some (w.report .user (stopStatus 0 sigtrap) regs) else none
  | .exiting =>
      if w.position = .user ∨ w.position = .trapped ∨ w.position = .entered then
        some (w.report .dying (stopStatus 6 sigtrap) .unread)
      else none
  | .exited code =>
      if w.position = .dying ∧ code < 0x100 then
        some (w.report .dead (code * 0x100) .unread)
      else none
  | .killed sig =>
      if w.position = .dying ∧ 0 < sig ∧ sig < 0x7f then
        some (w.report .dead sig .unread)
      else none

def step (w : World) (event : Event) : Option World :=
  if w.tracer.outcome = .tracing then w.advance event else none

end World

def syscallStops (events : List Event) : List Label :=
  events.filterMap fun
    | .entryStop _ => some .entering
    | .exitStop _ => some .exiting
    | _ => none

def loggedStops (log : List LogEntry) : List Label :=
  log.filterMap fun
    | .syscall label _ status =>
        if wstopsig status = syscallPseudosig then some label else none
    | _ => none

theorem loggedStops_append (log entries : List LogEntry) :
    loggedStops (log ++ entries) = loggedStops log ++ loggedStops entries :=
  List.filterMap_append

/-! What one iteration of the loop does, by the kind of stop. -/

structure Tracer.GoesOn (t next : Tracer) (state : State) (resumes : List Resume)
    (labels : List Label) : Prop where
  outcome : next.outcome = t.outcome
  state : next.state = state
  resumes : next.resumes = resumes
  logged : loggedStops next.log = loggedStops t.log ++ labels

theorem ptraceEvent_stopStatus {event sig : Nat} (hevent : event < 0x100)
    (hsig : sig < 0x100) : ptraceEvent (stopStatus event sig) = event := by
  simp only [ptraceEvent, stopStatus]
  omega

theorem wstopsig_stopStatus {event sig : Nat} (hsig : sig < 0x100) :
    wstopsig (stopStatus event sig) = sig := by
  simp only [wstopsig, stopStatus]
  omega

theorem wifstopped_stopStatus (event sig : Nat) :
    wifexited (stopStatus event sig) = false ∧ wifsignaled (stopStatus event sig) = false ∧
      wifstopped (stopStatus event sig) = true := by
  have hlow : stopStatus event sig % 0x80 = 0x7f ∧ stopStatus event sig % 0x100 = 0x7f := by
    simp only [stopStatus]
    omega
  simp [wifexited, wifsignaled, wifstopped, wtermsig, hlow]

namespace Tracer

variable (t : Tracer) (regs : Regs)

theorem goesOn_event {event : Nat} (hpositive : 0 < event) (hevent : event < 0x100) :
    t.GoesOn (t.handle (stopStatus event sigtrap) regs)
      (if event = ptraceEventExec then .exitingSyscall else .enteringSyscall)
      [.syscall] [] := by
  have hnumber := ptraceEvent_stopStatus hevent (show sigtrap < 0x100 by decide)
  simp only [handle, hnumber, ne_eq, Nat.ne_of_gt hpositive, not_false_eq_true, if_true]
  split <;>
    exact ⟨rfl, rfl, rfl, by simp [resume, logged, loggedStops]⟩

theorem handle_stop {sig : Nat} (hsig : sig < 0x100) :
    t.handle (stopStatus 0 sig) regs =
      { t with resumes := [] }.handleStop sig (stopStatus 0 sig) regs := by
  have hevent := ptraceEvent_stopStatus (show 0 < 0x100 by decide) hsig
  obtain ⟨hexited, hsignaled, hstopped⟩ := wifstopped_stopStatus 0 sig
  simp [handle, hevent, hexited, hsignaled, hstopped, wstopsig_stopStatus hsig]

theorem goesOn_entering (hstate : t.state = .enteringSyscall) :
    t.GoesOn (t.handle (stopStatus 0 syscallPseudosig) regs) .exitingSyscall
      [.syscall] [.entering] := by
  rw [handle_stop t regs (by decide)]
  simp only [handleStop, hstate]
  exact ⟨rfl, rfl, rfl, by simp [resume, logged, label, loggedStops_append]; rfl⟩

theorem goesOn_exiting (hstate : t.state = .exitingSyscall) :
    t.GoesOn (t.handle (stopStatus 0 syscallPseudosig) regs) .trappingSeccomp
      [.cont] [.exiting] := by
  rw [handle_stop t regs (by decide)]
  simp only [handleStop, hstate]
  exact ⟨rfl, rfl, rfl, by simp [resume, logged, label, loggedStops_append]; rfl⟩

theorem goesOn_signal {sig : Nat} (hsig : sig < 0x80) (htrap : sig ≠ sigtrap)
    (hstate : t.state = .trappingSeccomp) :
    t.GoesOn (t.handle (stopStatus 0 sig) regs) .trappingSeccomp
      [.singlestep, .cont] [] := by
  have hpseudo : sig ≠ syscallPseudosig := by
    simp only [syscallPseudosig]
    omega
  rw [handle_stop t regs (by omega)]
  simp only [handleStop, ne_eq, hpseudo, htrap, not_false_eq_true, and_self, if_true]
  exact ⟨rfl, hstate, by simp [resume, logged, hstate],
    by simp [resume, logged, loggedStops]⟩

theorem goesOn_trap (hstate : t.state = .trappingSeccomp) :
    t.GoesOn (t.handle (stopStatus 0 sigtrap) regs) .trappingSeccomp [.cont] [] := by
  have hpseudo : sigtrap ≠ syscallPseudosig := by decide
  have hsig : wstopsig (stopStatus 0 sigtrap) = sigtrap := by decide
  rw [handle_stop t regs (by decide)]
  simp only [handleStop, ne_eq, not_true_eq_false, and_false, if_false, hpseudo]
  exact ⟨rfl, hstate, by simp [resume, logged, hstate],
    by simp [resume, logged, loggedStops, hsig, hpseudo]⟩

structure Ends (t next : Tracer) : Prop where
  outcome : next.outcome ≠ .aborted
  logged : loggedStops next.log = loggedStops t.log

theorem ends_exited {code : Nat} (hcode : code < 0x100) :
    t.Ends (t.handle (code * 0x100) regs) := by
  have hevent : ptraceEvent (code * 0x100) = 0 := by
    simp only [ptraceEvent]
    omega
  have hexited : wifexited (code * 0x100) = true := by
    simp only [wifexited, wtermsig, beq_iff_eq]
    omega
  simp only [handle, hevent, hexited]
  exact ⟨nofun, by simp [Tracer.logged, loggedStops]⟩

theorem ends_killed {sig : Nat} (hpositive : 0 < sig) (hsig : sig < 0x7f) :
    t.Ends (t.handle sig regs) := by
  have hevent : ptraceEvent sig = 0 := by
    simp only [ptraceEvent]
    omega
  have hterm : wtermsig sig = sig := Nat.mod_eq_of_lt (by omega)
  have hexited : wifexited sig = false := by simp [wifexited, hterm, Nat.ne_of_gt hpositive]
  have hsignaled : wifsignaled sig = true := by simp [wifsignaled, hterm, hpositive, hsig]
  simp only [handle, hevent, hexited, hsignaled]
  exact ⟨nofun, by simp [Tracer.logged, loggedStops]⟩

end Tracer

/-! As long as no fork is reported, the state of the tracer says where the tracee is:
it waits for the filter between syscalls, and inside those that began unseen. -/

/-- The tracer waits for the filter, and the tracee passes the syscall boundaries
unseen. -/
structure Tracer.Waits (t : Tracer) : Prop where
  state : t.state = .trappingSeccomp
  unseen : Resume.syscall ∉ t.resumes

structure Tracer.Follows (t : Tracer) (state : State) : Prop where
  state : t.state = state
  resumes : t.resumes = [.syscall]

namespace World

def InStep (w : World) : Prop :=
  match w.position with
  | .user => w.tracer.Waits
  | .trapped => w.tracer.Follows .enteringSyscall
  | .entered => w.tracer.Waits ∨ w.tracer.Follows .exitingSyscall
  | .dying | .dead => True

structure Ok (w : World) (stops : List Label) : Prop where
  outcome : w.tracer.outcome ≠ .aborted
  inStep : w.InStep
  logged : loggedStops w.tracer.log = stops

theorem ok_initial : initial.Ok [] :=
  ⟨nofun, ⟨rfl, by decide⟩, rfl⟩

end World

namespace Event

def isFork : Event → Bool
  | .inside .exec => false
  | .inside _ => true
  | _ => false

end Event

theorem World.ok_of_goesOn {w : World} {stops labels : List Label} (ok : w.Ok stops)
    {position : Position} {status : Nat} {regs : Regs} {state : State}
    {resumes : List Resume}
    (goesOn : w.tracer.GoesOn (w.tracer.handle status regs) state resumes labels)
    (inStep : (w.report position status regs).InStep) :
    (w.report position status regs).Ok (stops ++ labels) :=
  ⟨fun h => ok.outcome (goesOn.outcome ▸ h), inStep, by
    rw [← ok.logged]
    exact goesOn.logged⟩

theorem World.ok_of_ends {w : World} {stops : List Label} (ok : w.Ok stops)
    {status : Nat} {regs : Regs} (ends : w.tracer.Ends (w.tracer.handle status regs)) :
    (w.report .dead status regs).Ok (stops ++ []) := by
  refine ⟨ends.outcome, trivial, ?_⟩
  rw [List.append_nil, ← ok.logged]
  exact ends.logged

theorem World.inStep_of_goesOn {w : World} {status : Nat} {regs : Regs}
    {labels : List Label} {state : State}
    (goesOn : w.tracer.GoesOn (w.tracer.handle status regs) state [.syscall] labels) :
    (w.tracer.handle status regs).Follows state :=
  ⟨goesOn.state, goesOn.resumes⟩

theorem World.ok_of_step {w next : World} {stops : List Label} (ok : w.Ok stops)
    {event : Event} (hfork : event.isFork = false) (hstep : w.step event = some next) :
    next.Ok (stops ++ syscallStops [event]) := by
  obtain ⟨_, hstep⟩ := Option.ite_none_right_eq_some.mp hstep
  have inStep := ok.inStep
  cases event with
  | enterSilently =>
      obtain ⟨⟨hposition, how, hhow, huntraced⟩, rfl⟩ := Option.ite_some_none_eq_some.mp hstep
      refine ⟨ok.outcome, ?_, by simpa [syscallStops] using ok.logged⟩
      rcases hposition with ⟨huser, _⟩ | htrapped
      · simp only [InStep, huser] at inStep
        exact .inl inStep
      · simp only [InStep, htrapped] at inStep
        rw [inStep.resumes, List.mem_singleton] at hhow
        exact absurd hhow huntraced
  | installFilter =>
      obtain ⟨hposition, rfl⟩ := Option.ite_some_none_eq_some.mp hstep
      exact ⟨ok.outcome, inStep, by simpa [syscallStops] using ok.logged⟩
  | leaveSilently =>
      obtain ⟨⟨hposition, how, hhow, huntraced⟩, rfl⟩ := Option.ite_some_none_eq_some.mp hstep
      refine ⟨ok.outcome, ?_, by simpa [syscallStops] using ok.logged⟩
      simp only [InStep, hposition] at inStep
      rcases inStep with waits | follows
      · exact waits
      · rw [follows.resumes, List.mem_singleton] at hhow
        exact absurd hhow huntraced
  | seccomp =>
      obtain ⟨_, rfl⟩ := Option.ite_some_none_eq_some.mp hstep
      have goesOn := w.tracer.goesOn_event .unread (show 0 < 7 by decide) (by decide)
      exact w.ok_of_goesOn ok goesOn (inStep_of_goesOn goesOn)
  | entryStop regs =>
      obtain ⟨⟨hposition, hseen⟩, rfl⟩ := Option.ite_some_none_eq_some.mp hstep
      rcases hposition with ⟨huser, _⟩ | htrapped
      · simp only [InStep, huser] at inStep
        exact absurd hseen inStep.unseen
      · simp only [InStep, htrapped] at inStep
        have goesOn := w.tracer.goesOn_entering regs inStep.state
        exact w.ok_of_goesOn ok goesOn (.inr (inStep_of_goesOn goesOn))
  | inside event =>
      obtain ⟨_, rfl⟩ := Option.ite_some_none_eq_some.mp hstep
      cases event with
      | exec =>
          have goesOn := w.tracer.goesOn_event .unread (show 0 < ptraceEventExec by decide)
            (by decide)
          exact w.ok_of_goesOn ok goesOn (.inr (inStep_of_goesOn goesOn))
      | fork | vfork | clone | vforkDone => cases hfork
  | exitStop regs =>
      obtain ⟨⟨hposition, hseen⟩, rfl⟩ := Option.ite_some_none_eq_some.mp hstep
      simp only [InStep, hposition] at inStep
      rcases inStep with waits | follows
      · exact absurd hseen waits.unseen
      · have goesOn := w.tracer.goesOn_exiting regs follows.state
        exact w.ok_of_goesOn ok goesOn ⟨goesOn.state, goesOn.resumes ▸ by decide⟩
  | signalStop sig =>
      obtain ⟨⟨hposition, _, hsig, htrap⟩, rfl⟩ := Option.ite_some_none_eq_some.mp hstep
      simp only [InStep, hposition] at inStep
      have goesOn := w.tracer.goesOn_signal .unread hsig htrap inStep.state
      exact w.ok_of_goesOn ok goesOn ⟨goesOn.state, goesOn.resumes ▸ by decide⟩
  | trapStop regs =>
      obtain ⟨hposition, rfl⟩ := Option.ite_some_none_eq_some.mp hstep
      simp only [InStep, hposition] at inStep
      have goesOn := w.tracer.goesOn_trap regs inStep.state
      exact w.ok_of_goesOn ok goesOn ⟨goesOn.state, goesOn.resumes ▸ by decide⟩
  | exiting =>
      obtain ⟨_, rfl⟩ := Option.ite_some_none_eq_some.mp hstep
      have goesOn := w.tracer.goesOn_event .unread (show 0 < 6 by decide) (by decide)
      exact w.ok_of_goesOn ok goesOn trivial
  | exited code =>
      obtain ⟨⟨_, hcode⟩, rfl⟩ := Option.ite_some_none_eq_some.mp hstep
      exact w.ok_of_ends ok (w.tracer.ends_exited .unread hcode)
  | killed sig =>
      obtain ⟨⟨_, hpositive, hsig⟩, rfl⟩ := Option.ite_some_none_eq_some.mp hstep
      exact w.ok_of_ends ok (w.tracer.ends_killed .unread hpositive hsig)

theorem syscallStops_append (before after : List Event) :
    syscallStops (before ++ after) = syscallStops before ++ syscallStops after :=
  List.filterMap_append

theorem World.ok_of_run {events : List Event} {w : World}
    (hrun : run World.step World.initial events = some w)
    (hforks : ∀ event ∈ events, event.isFork = false) : w.Ok (syscallStops events) := by
  refine run_invariant (P := fun before w =>
    (∀ event ∈ before, event.isFork = false) → w.Ok (syscallStops before)) hrun
    (fun _ => ok_initial) ?_ hforks
  intro before middle event next _ ih hstep hforks
  rw [syscallStops_append]
  refine World.ok_of_step (ih fun earlier hearlier => hforks earlier ?_)
    (hforks event ?_) hstep
  · exact List.mem_append_left _ hearlier
  · exact List.mem_append_right _ List.mem_cons_self

theorem World.logged_of_fork {w middle next : World} {event : InsideEvent} {regs : Regs}
    (hfork : (Event.inside event).isFork = true)
    (hevent : w.step (.inside event) = some middle)
    (hexit : middle.step (.exitStop regs) = some next) :
    loggedStops next.tracer.log = loggedStops w.tracer.log ++ [.entering] := by
  obtain ⟨_, hevent⟩ := Option.ite_none_right_eq_some.mp hevent
  obtain ⟨_, rfl⟩ := Option.ite_some_none_eq_some.mp hevent
  obtain ⟨_, hexit⟩ := Option.ite_none_right_eq_some.mp hexit
  obtain ⟨_, rfl⟩ := Option.ite_some_none_eq_some.mp hexit
  have hnumber : 0 < event.number ∧ event.number < 0x100 := by cases event <;> decide
  have goesOn := w.tracer.goesOn_event .unread hnumber.1 hnumber.2
  have hstate : (if event.number = ptraceEventExec then State.exitingSyscall
      else .enteringSyscall) = .enteringSyscall := by
    cases event with
    | exec => cases hfork
    | fork | vfork | clone | vforkDone => rfl
  have hlogged := (Tracer.goesOn_entering _ regs (goesOn.state.trans hstate)).logged
  rw [goesOn.logged, List.append_nil] at hlogged
  exact hlogged

/-- In a run without forks every syscall stop is logged as what it is, and no assertion
fails.  The exit stop after a fork is logged as an entry. -/
theorem trace_labels_stops {events : List Event} {w : World}
    (hrun : run World.step World.initial events = some w) :
    ((∀ event ∈ events, event.isFork = false) →
      loggedStops w.tracer.log = syscallStops events ∧ w.tracer.outcome ≠ .aborted) ∧
    ∀ before event regs, events = before ++ [.inside event, .exitStop regs] →
      (Event.inside event).isFork = true →
        loggedStops w.tracer.log ≠ syscallStops events := by
  constructor
  · intro hforks
    have ok := World.ok_of_run hrun hforks
    exact ⟨ok.logged, ok.outcome⟩
  · rintro before event regs rfl hfork heq
    obtain ⟨start, hstart, hrest⟩ := run_append.mp hrun
    obtain ⟨middle, hevent, hrest⟩ := run_cons.mp hrest
    obtain ⟨last, hexit, hlast⟩ := run_cons.mp hrest
    cases hlast
    rw [World.logged_of_fork hfork hevent hexit, syscallStops_append] at heq
    have hlast := congrArg List.getLast? heq
    simp [syscallStops] at hlast

def execAndRead : List Event :=
  [.enterSilently, .inside .exec, .exitStop .unread, .enterSilently, .installFilter,
    .leaveSilently, .signalStop 14, .trapStop .unread, .seccomp, .entryStop .unread,
    .exitStop .unread, .exiting, .exited 0]

theorem trace_labels_stops_execAndRead :
    ∃ w, run World.step World.initial execAndRead = some w ∧
      loggedStops w.tracer.log = [.exiting, .entering, .exiting] ∧
      w.tracer.outcome ≠ .aborted := by
  have hsome : (run World.step World.initial execAndRead).isSome = true := by
    decide +kernel
  obtain ⟨w, hrun⟩ := Option.isSome_iff_exists.mp hsome
  exact ⟨w, hrun, (trace_labels_stops hrun).1 (by decide)⟩

def cloneOnce : List Event :=
  [.enterSilently, .installFilter, .leaveSilently, .seccomp, .entryStop .unread,
    .inside .clone, .exitStop .unread]

theorem trace_mislabels_clone :
    (run World.step World.initial cloneOnce).map (fun w => loggedStops w.tracer.log) =
        some [.entering, .entering] ∧
      syscallStops cloneOnce = [.entering, .exiting] := by
  decide +kernel

end RrWorkbench.Regtrace
