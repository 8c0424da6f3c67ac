import RrWorkbench.PathRuntime.Logging

namespace RrWorkbench.PathRuntime

open RrWorkbench.Data

/-! The end of a process.  Three things empty a buffer: that it is full, the destructor
of the key, and `finish_main_thread_buffer_hack` in the thread that calls `exit()`. -/

namespace World

section Finish

variable {w w' : World} {p : ProcessId} {t : ThreadId}

def HackIsNext (w : World) (p : ProcessId) (t : ThreadId) : Prop :=
  ∃ proc inHandler rest, w.processes p = some proc ∧
    proc.phase = .exiting t inHandler ∧
    proc.atexitHandlers = .finishMainThreadBufferHack :: rest

theorem Ok.buffered_of_hack (ok : w.Ok) (hnext : w.HackIsNext p t)
    (h : w.step (.runHandler p) = some w') : w'.buffered p t = [] := by
  obtain ⟨proc, inHandler, rest, hproc, hphase, hhandlers⟩ := hnext
  cases stepped_of_step h with
  | runApplication hproc' _ hhandlers' =>
      cases hproc.symm.trans hproc'
      cases hhandlers.symm.trans hhandlers'
  | @runHack _ _ _ _ rest' _ _ hproc' hphase' _ hthread hact =>
      cases hproc.symm.trans hproc'
      cases hphase.symm.trans hphase'
      have same : proc.SameBuffers
          { proc with atexitHandlers := rest', phase := .exiting t false } :=
        Process.sameBuffers_withPhase _ _
      exact buffered_of_act hact fun rt hrt =>
        (ok.hack_retires hproc same hthread hrt).2

end Finish

/-! Once `exit()` has been called the hack stays registered until it runs. -/

section Pending

variable {w w' : World} {p q : ProcessId} {proc proc' : Process} {t : ThreadId}
  {e : Event} {events : List Event}

def HackIsPending (w : World) (p : ProcessId) (t : ThreadId) : Prop :=
  ∃ proc inHandler, w.processes p = some proc ∧
    proc.phase = .exiting t inHandler ∧
    .finishMainThreadBufferHack ∈ proc.atexitHandlers

theorem HackIsPending.congr (pending : w.HackIsPending p t)
    (h : w'.processes p = w.processes p) : w'.HackIsPending p t := by
  obtain ⟨proc, inHandler, hproc, hrest⟩ := pending
  exact ⟨proc, inHandler, h.trans hproc, hrest⟩

theorem HackIsPending.setProcess (pending : w.HackIsPending p t)
    (hproc : w.processes q = some proc)
    (hkeep : ∀ inHandler, proc.phase = .exiting t inHandler →
      .finishMainThreadBufferHack ∈ proc.atexitHandlers →
      (∃ inHandler, proc'.phase = .exiting t inHandler) ∧
        .finishMainThreadBufferHack ∈ proc'.atexitHandlers) :
    (w.setProcess q proc').HackIsPending p t := by
  by_cases hq : p = q
  · subst hq
    obtain ⟨proc₀, inHandler, hproc₀, hphase, hmem⟩ := pending
    cases hproc.symm.trans hproc₀
    obtain ⟨⟨inHandler', hphase'⟩, hmem'⟩ := hkeep inHandler hphase hmem
    exact ⟨proc', inHandler', setProcess_self, hphase', hmem'⟩
  · exact pending.congr (setProcess_of_ne hq)

theorem HackIsPending.act {thread : Thread} {call : Runtime → Option Runtime}
    (pending : w.HackIsPending p t) {t' : ThreadId}
    (hproc : w.processes q = some proc)
    (hphase : ∀ inHandler, proc.phase = .exiting t inHandler →
      ∃ inHandler, proc'.phase = .exiting t inHandler)
    (hcall : ∀ rt, call (proc'.runtime thread) = some rt →
      .finishMainThreadBufferHack ∈ proc.atexitHandlers →
      .finishMainThreadBufferHack ∈ rt.atexitHandlers)
    (h : w.act q proc' t' thread call = some w') : w'.HackIsPending p t := by
  obtain ⟨rt, hrt, hprocesses, _⟩ := act_eq_some h
  have hset : (w.setProcess q (proc'.withRuntime t' thread rt)).HackIsPending p t :=
    pending.setProcess hproc fun inHandler hexiting hmem =>
      ⟨hphase inHandler hexiting, hcall rt hrt hmem⟩
  exact hset.congr (hprocesses p)

theorem Ok.hackIsPending_of_step (ok : w.Ok) (pending : w.HackIsPending p t)
    (h : w.step e = some w') :
    e = .runHandler p ∧ w.HackIsNext p t ∨ w'.HackIsPending p t := by
  cases stepped_of_step h with
  | increment hproc hthread hfresh hact =>
      refine .inr (pending.act hproc (fun inHandler h => ⟨inHandler, h⟩) ?_ hact)
      intro rt hrt hmem
      rcases (of_eq_some (Runtime.llvmIncrementPathCount_retires
        (ok.runtime hproc hthread) _ _ hfresh) hrt).2 with heq | heq
      · rw [heq]
        exact hmem
      · rw [heq]
        exact List.mem_cons_self ..
  | createThread hproc _ =>
      exact .inr (pending.setProcess hproc fun inHandler hphase hmem =>
        ⟨⟨inHandler, hphase⟩, hmem⟩)
  | exitThread hproc _ =>
      exact .inr (pending.setProcess hproc fun inHandler hphase hmem =>
        ⟨⟨inHandler, hphase⟩, hmem⟩)
  | runDestructor hproc hthread hkey hact =>
      refine .inr (pending.act hproc (fun inHandler h => ⟨inHandler, h⟩) ?_ hact)
      intro rt hrt hmem
      rw [(of_eq_some (Runtime.runDestructor_retires (ok.runtime hproc hthread) hkey)
        hrt).2.2]
      exact hmem
  | endThread hproc _ =>
      exact .inr (pending.setProcess hproc fun inHandler hphase hmem =>
        ⟨⟨inHandler, hphase⟩, hmem⟩)
  | fork _ _ hchild =>
      refine .inr (pending.congr (setProcess_of_ne ?_))
      rintro rfl
      obtain ⟨proc', _, hproc', _⟩ := pending
      rw [hproc'] at hchild
      contradiction
  | atexit hproc =>
      exact .inr (pending.setProcess hproc fun inHandler hphase hmem =>
        ⟨⟨inHandler, hphase⟩, List.mem_cons_of_mem _ hmem⟩)
  | exit hproc hrunning =>
      refine .inr (pending.setProcess hproc fun inHandler hphase => ?_)
      rw [hrunning] at hphase
      contradiction
  | runApplication hproc hphase hhandlers =>
      refine .inr (pending.setProcess hproc fun inHandler' hphase' hmem =>
        ⟨⟨true, ?_⟩, ?_⟩)
      · cases hphase.symm.trans hphase'
        rfl
      · rw [hhandlers] at hmem
        exact List.mem_of_ne_of_mem (by decide) hmem
  | @runHack q proc _ _ rest _ _ hproc _ hhandlers _ hact =>
      by_cases hq : q = p
      · subst hq
        obtain ⟨proc', inHandler', hproc', hphase', _⟩ := pending
        cases hproc.symm.trans hproc'
        exact .inl ⟨rfl, proc, inHandler', rest, hproc, hphase', hhandlers⟩
      · obtain ⟨_, _, hprocesses, _⟩ := act_eq_some hact
        exact .inr (pending.congr ((hprocesses p).trans
          (setProcess_of_ne (Ne.symm hq))))
  | endProcess hproc _ hhandlers =>
      refine .inr (pending.setProcess hproc fun inHandler _ hmem => ?_)
      rw [hhandlers] at hmem
      contradiction

/-- If the process ends, the hack has run. -/
theorem Ok.exists_hack (ok : w.Ok) (pending : w.HackIsPending p t)
    (hrun : run step w events = some w')
    (hgone : ∃ proc, w'.processes p = some proc ∧ proc.phase = .gone) :
    ∃ middle rest w₁ w₂, events = middle ++ .runHandler p :: rest ∧
      run step w middle = some w₁ ∧ w₁.HackIsNext p t ∧
      w₁.step (.runHandler p) = some w₂ ∧ run step w₂ rest = some w' := by
  induction events generalizing w with
  | nil =>
      cases hrun
      obtain ⟨proc, _, hproc, hphase, _⟩ := pending
      obtain ⟨proc', hproc', hgone⟩ := hgone
      cases hproc.symm.trans hproc'
      rw [hphase] at hgone
      contradiction
  | cons e rest ih =>
      obtain ⟨next, hstep, hrest⟩ := run_cons.mp hrun
      rcases ok.hackIsPending_of_step pending hstep with ⟨rfl, hnext⟩ | pending'
      · exact ⟨[], rest, w, next, rfl, rfl, hnext, hstep, hrest⟩
      · obtain ⟨middle, rest', w₁, w₂, rfl, hmiddle, hnext, hhack, hafter⟩ :=
          ih (ok.logs_of_step hstep).ok pending' hrest
        exact ⟨e :: middle, rest', w₁, w₂, rfl,
          run_cons.mpr ⟨next, hstep, hmiddle⟩, hnext, hhack, hafter⟩

end Pending

end World

theorem World.Ok.length_buffered {w : World} (ok : w.Ok) (p : ProcessId)
    (t : ThreadId) : (w.buffered p t).length < pathRecordBufferSize := by
  unfold World.buffered
  cases hproc : w.processes p with
  | none => exact Nat.zero_lt_succ _
  | some proc =>
      cases hbuffer : (proc.view t).recordBuffer with
      | none =>
          simp only [Runtime.buffered_none hbuffer]
          exact Nat.zero_lt_succ _
      | some buf =>
          obtain ⟨records, hmemory, hlen⟩ := ((ok p proc hproc).view t).buffer buf hbuffer
          simp only [Runtime.buffered_some hbuffer hmemory, PathRecords.contents]
          exact Nat.lt_of_le_of_lt (List.length_take_le _ _) hlen

/-- When a process is gone, all is written that a thread retired before the destructor
of its key ran, and all that the caller of `exit()` retired before the hack ran, which
it does if it is registered.  What is missing fits into one buffer. -/
theorem exit_writes_finished_records {events : List Event} {w : World}
    {p : ProcessId} {proc : Process}
    (hrun : run World.step World.initial events = some w)
    (hproc : w.processes p = some proc) (hgone : proc.phase = .gone) :
    (∀ t, ∃ lost, retired p t events = w.written p t ++ lost ∧
        lost.length < pathRecordBufferSize) ∧
      (∀ t before after, events = before ++ .runDestructor p t :: after →
        retired p t before <+: w.written p t) ∧
      ∀ t before after w₁, events = before ++ after →
        run World.step World.initial before = some w₁ → w₁.HackIsPending p t →
        ∃ middle rest, after = middle ++ .runHandler p :: rest ∧
          (∃ w₂, run World.step World.initial (before ++ middle) = some w₂ ∧
            w₂.HackIsNext p t) ∧
          retired p t (before ++ middle) <+: w.written p t := by
  refine ⟨fun t => ?_, ?_, ?_⟩
  · obtain ⟨ok, hlog⟩ := World.log_of_run hrun
    exact ⟨w.buffered p t, (hlog p t).symm, ok.length_buffered p t⟩
  · rintro t before after rfl
    exact (World.written_of_runDestructor hrun).1
  · rintro t before after w₁ rfl hbefore pending
    obtain ⟨w₁', hbefore', hafter⟩ := run_append.mp hrun
    cases hbefore.symm.trans hbefore'
    obtain ⟨middle, rest, w₂, w₃, rfl, hmiddle, hnext, hstep, hrest⟩ :=
      (World.log_of_run hbefore).1.exists_hack pending hafter ⟨proc, hproc, hgone⟩
    have hreach := run_append.mpr ⟨w₁, hbefore, hmiddle⟩
    have ok := (World.log_of_run hreach).1
    exact ⟨middle, rest, rfl, ⟨w₂, hreach, hnext⟩,
      World.retired_prefix_written hreach hstep hrest rfl
        (ok.buffered_of_hack hnext hstep)⟩

/-- Thread 1 ends, then thread 0 calls `exit()` with a record in its buffer. -/
def sampleExit : List Event :=
  [ .increment 0 0 10 1 100, .createThread 0 0 1, .increment 0 1 10 2 200,
    .exitThread 0 1, .runDestructor 0 1, .endThread 0 1, .exit 0 0, .runHandler 0,
    .endProcess 0 ]

theorem exit_writes_finished_records_sampleExit :
    ∃ w proc, run World.step World.initial sampleExit = some w ∧
      w.processes 0 = some proc ∧ proc.phase = .gone ∧
      [⟨10, 2⟩] <+: w.written 0 1 ∧ [⟨10, 1⟩] <+: w.written 0 0 := by
  have hphase : ((run World.step World.initial sampleExit).bind fun w =>
      (w.processes 0).map Process.phase) = some .gone := by decide +kernel
  obtain ⟨w, hrun, hphase⟩ := Option.bind_eq_some_iff.mp hphase
  obtain ⟨proc, hproc, hgone⟩ := Option.map_eq_some_iff.mp hphase
  obtain ⟨_, hdestructor, hhack⟩ := exit_writes_finished_records hrun hproc hgone
  refine ⟨w, proc, hrun, hproc, hgone,
    hdestructor 1 (sampleExit.take 4) (sampleExit.drop 5) rfl, ?_⟩
  have hexit : ((run World.step World.initial (sampleExit.take 7)).bind fun w =>
      (w.processes 0).map fun proc => (proc.phase, proc.atexitHandlers)) =
        some (.exiting 0 false, [.finishMainThreadBufferHack]) := by decide +kernel
  obtain ⟨w₁, hbefore, hexit⟩ := Option.bind_eq_some_iff.mp hexit
  obtain ⟨proc₁, hproc₁, hexit⟩ := Option.map_eq_some_iff.mp hexit
  obtain ⟨hphase₁, hhandlers₁⟩ := Prod.mk.inj hexit
  obtain ⟨middle, _, _, _, hwritten⟩ := hhack 0 (sampleExit.take 7) (sampleExit.drop 7)
    w₁ rfl hbefore ⟨proc₁, false, hproc₁, hphase₁, by rw [hhandlers₁]; decide⟩
  rw [retired_append] at hwritten
  exact (List.prefix_append _ _).trans hwritten

def threadAliveAtExit : List Event :=
  [ .createThread 0 0 1, .increment 0 1 10 1 100, .exit 0 0, .runHandler 0,
    .endProcess 0 ]

/-- The application's handler is registered before the hack, so it runs after it. -/
def handlerAfterHack : List Event :=
  [ .atexit 0 0, .increment 0 0 10 1 100, .exit 0 0, .runHandler 0, .runHandler 0,
    .increment 0 0 10 2 100, .endProcess 0 ]

theorem World.exists_lost {events : List Event} {t : ThreadId}
    (records : List PathRecord)
    (h : ((run World.step World.initial events).bind fun w =>
      (w.processes 0).map fun proc => (proc.phase, w.written 0 t)) =
        some (.gone, records))
    (hne : records ≠ retired 0 t events) :
    ∃ w proc, run World.step World.initial events = some w ∧
      w.processes 0 = some proc ∧ proc.phase = .gone ∧
      w.written 0 t ≠ retired 0 t events := by
  obtain ⟨w, hrun, h⟩ := Option.bind_eq_some_iff.mp h
  obtain ⟨proc, hproc, h⟩ := Option.map_eq_some_iff.mp h
  obtain ⟨hgone, rfl⟩ := Prod.mk.inj h
  exact ⟨w, proc, hrun, hproc, hgone, hne⟩

theorem exit_loses_records :
    (∃ w proc, run World.step World.initial threadAliveAtExit = some w ∧
      w.processes 0 = some proc ∧ proc.phase = .gone ∧
      w.written 0 1 ≠ retired 0 1 threadAliveAtExit) ∧
    ∃ w proc, run World.step World.initial handlerAfterHack = some w ∧
      w.processes 0 = some proc ∧ proc.phase = .gone ∧
      w.written 0 0 ≠ retired 0 0 handlerAfterHack := by
  constructor
  · exact World.exists_lost [] (by decide +kernel) (by decide)
  · exact World.exists_lost [⟨10, 1⟩] (by decide +kernel) (by decide)

end RrWorkbench.PathRuntime
