import RrWorkbench.PathRuntime.World

namespace RrWorkbench.PathRuntime

open RrWorkbench.Data

/-! Nothing is lost, reordered or written twice: what a thread has written and what is
in its buffer is what it has retired. -/

namespace Process

/-- Every thread finds its buffer, and no two have the same. -/
structure Ok (proc : Process) : Prop where
  view : ∀ t, (proc.view t).Ok
  separate : ∀ t t' buf, (proc.view t).recordBuffer = some buf →
    (proc.view t').recordBuffer = some buf → t = t'

structure SameBuffers (proc proc' : Process) : Prop where
  memory : proc'.memory = proc.memory
  recordBuffer : ∀ t, (proc'.view t).recordBuffer = (proc.view t).recordBuffer
  finishBufferKey : ∀ t, (proc'.view t).finishBufferKey = (proc.view t).finishBufferKey
  initProcessOnce : proc'.initProcessOnce = proc.initProcessOnce
  atforkDropBuffer : proc'.atforkDropBuffer = proc.atforkDropBuffer
  keyFinishBuffer : proc'.keyFinishBuffer = proc.keyFinishBuffer

section

variable {proc proc' : Process} {t : ThreadId} {thread : Thread}

theorem view_eq (h : proc.threads t = some thread) : proc.view t = proc.runtime thread := by
  rw [view, h]
  rfl

theorem SameBuffers.buffered (same : SameBuffers proc proc') (t : ThreadId) :
    (proc'.view t).buffered = (proc.view t).buffered := by
  have hmemory : (proc'.view t).memory = (proc.view t).memory := same.memory
  rw [Runtime.buffered, same.recordBuffer, hmemory, Runtime.buffered]

theorem SameBuffers.ok (same : SameBuffers proc proc') (ok : proc.Ok) : proc'.Ok where
  view t :=
    { key := by rw [same.finishBufferKey, same.recordBuffer]; exact (ok.view t).key
      buffer := by
        intro buf h
        rw [same.recordBuffer] at h
        have hmemory : (proc'.view t).memory = (proc.view t).memory := same.memory
        rw [hmemory]
        exact (ok.view t).buffer buf h
      once := by
        rw [same.recordBuffer]
        exact fun h => same.initProcessOnce.trans ((ok.view t).once h)
      registered := by
        intro h
        obtain ⟨hatfork, hkey⟩ :=
          (ok.view t).registered (same.initProcessOnce.symm.trans h)
        exact ⟨same.atforkDropBuffer.trans hatfork, same.keyFinishBuffer.trans hkey⟩ }
  separate t t' buf h h' := by
    rw [same.recordBuffer] at h h'
    exact ok.separate t t' buf h h'

theorem SameBuffers.refl (proc : Process) : SameBuffers proc proc :=
  ⟨rfl, fun _ => rfl, fun _ => rfl, rfl, rfl, rfl⟩

theorem sameBuffers_of_threads (threads : ThreadId → Option Thread)
    (h : ∀ t, ((threads t).getD {}).recordBuffer = (proc.view t).recordBuffer ∧
      ((threads t).getD {}).finishBufferKey = (proc.view t).finishBufferKey)
    (handlers : List Handler) (phase : Phase) :
    SameBuffers proc
      { proc with threads := threads, atexitHandlers := handlers, phase := phase } where
  memory := rfl
  recordBuffer t := (h t).1
  finishBufferKey t := (h t).2
  initProcessOnce := rfl
  atforkDropBuffer := rfl
  keyFinishBuffer := rfl

theorem sameBuffers_withPhase (handlers : List Handler) (phase : Phase) :
    SameBuffers proc { proc with atexitHandlers := handlers, phase := phase } :=
  sameBuffers_of_threads proc.threads (fun _ => ⟨rfl, rfl⟩) handlers phase

theorem sameBuffers_setStatus (hthread : proc.threads t = some thread)
    (status : ThreadStatus) : SameBuffers proc (proc.setStatus t thread status) := by
  refine sameBuffers_of_threads _ (fun t' => ?_) _ _
  by_cases ht : t' = t
  · subst ht
    rw [Function.update_self, view_eq hthread]
    exact ⟨rfl, rfl⟩
  · rw [Function.update_of_ne ht]
    exact ⟨rfl, rfl⟩

theorem sameBuffers_createThread {new : ThreadId} (hnew : proc.threads new = none) :
    SameBuffers proc
      { proc with threads := Function.update proc.threads new (some {}) } := by
  refine sameBuffers_of_threads _ (fun t' => ?_) _ _
  by_cases ht : t' = new
  · subst ht
    rw [Function.update_self, view, hnew]
    exact ⟨rfl, rfl⟩
  · rw [Function.update_of_ne ht]
    exact ⟨rfl, rfl⟩

theorem view_withRuntime_self (rt : Runtime) :
    (proc.withRuntime t thread rt).view t = { rt with output := [] } := by
  simp [view, withRuntime, runtime]

theorem view_withRuntime_of_ne {t' : ThreadId} (hne : t' ≠ t) (rt : Runtime) :
    (proc.withRuntime t thread rt).view t' =
      { proc.view t' with
        memory := rt.memory
        initProcessOnce := rt.initProcessOnce
        atforkDropBuffer := rt.atforkDropBuffer
        keyFinishBuffer := rt.keyFinishBuffer
        atexitHandlers := rt.atexitHandlers } := by
  simp [view, withRuntime, runtime, hne]

theorem Ok.memory_of_ne (ok : proc.Ok) (hthread : proc.threads t = some thread)
    {records : List PathRecord} {rt : Runtime}
    (retires : Runtime.Retires records (proc.runtime thread) rt) {t' : ThreadId}
    (hne : t' ≠ t) {buf : Address} (hbuf : (proc.view t').recordBuffer = some buf) :
    rt.memory buf = proc.memory buf ∧ rt.recordBuffer ≠ some buf := by
  have hview := view_eq hthread
  have hold : (proc.runtime thread).recordBuffer ≠ some buf := by
    intro h
    exact hne (ok.separate t' t buf hbuf (hview ▸ h))
  have hnew : rt.recordBuffer ≠ some buf := by
    intro h
    obtain ⟨_, hmemory, _⟩ := (ok.view t').buffer buf hbuf
    rcases retires.fresh buf h with h | h
    · exact hold h
    · exact absurd (hmemory.symm.trans h) (Option.some_ne_none _)
  exact ⟨retires.frame buf hold hnew, hnew⟩

theorem Ok.withRuntime (ok : proc.Ok) (hthread : proc.threads t = some thread)
    {records : List PathRecord} {rt : Runtime}
    (retires : Runtime.Retires records (proc.runtime thread) rt) :
    (proc.withRuntime t thread rt).Ok where
  view t' := by
    by_cases hne : t' = t
    · subst hne
      rw [view_withRuntime_self]
      exact { retires.ok with }
    · rw [view_withRuntime_of_ne hne]
      refine
        { key := (ok.view t').key
          buffer := fun buf hbuf => ?_
          once := fun h => retires.once ((ok.view t').once h)
          registered := retires.ok.registered }
      obtain ⟨records, hmemory, hlen⟩ := (ok.view t').buffer buf hbuf
      exact ⟨records, ((ok.memory_of_ne hthread retires hne hbuf).1).trans hmemory,
        hlen⟩
  separate := by
    have hself : ∀ t' buf, t' ≠ t → (proc.view t').recordBuffer = some buf →
        rt.recordBuffer ≠ some buf := fun t' buf hne hbuf =>
      (ok.memory_of_ne hthread retires hne hbuf).2
    intro t₁ t₂ buf h₁ h₂
    by_cases h₁t : t₁ = t
    · subst h₁t
      by_cases h₂t : t₂ = t₁
      · exact h₂t.symm
      · rw [view_withRuntime_self] at h₁
        rw [view_withRuntime_of_ne h₂t] at h₂
        exact absurd h₁ (hself t₂ buf h₂t h₂)
    · rw [view_withRuntime_of_ne h₁t] at h₁
      by_cases h₂t : t₂ = t
      · subst h₂t
        rw [view_withRuntime_self] at h₂
        exact absurd h₂ (hself t₁ buf h₁t h₁)
      · rw [view_withRuntime_of_ne h₂t] at h₂
        exact ok.separate t₁ t₂ buf h₁ h₂

theorem Ok.buffered_withRuntime (ok : proc.Ok) (hthread : proc.threads t = some thread)
    {records : List PathRecord} {rt : Runtime}
    (retires : Runtime.Retires records (proc.runtime thread) rt) {t' : ThreadId}
    (hne : t' ≠ t) :
    ((proc.withRuntime t thread rt).view t').buffered = (proc.view t').buffered := by
  rw [view_withRuntime_of_ne hne]
  cases h : (proc.view t').recordBuffer with
  | none =>
      rw [Runtime.buffered_none h]
      exact Runtime.buffered_none h
  | some buf =>
      obtain ⟨records, hmemory, _⟩ := (ok.view t').buffer buf h
      rw [Runtime.buffered_some h hmemory]
      exact Runtime.buffered_some h
        ((ok.memory_of_ne hthread retires hne h).1.trans hmemory)

theorem ok_of_none (registered : proc.initProcessOnce = true →
      proc.atforkDropBuffer = true ∧ proc.keyFinishBuffer = true)
    (hnone : ∀ t, (proc.view t).recordBuffer = none ∧
      (proc.view t).finishBufferKey = none) : proc.Ok where
  view t :=
    { key := (hnone t).2.trans (hnone t).1.symm
      buffer := by
        intro buf h
        rw [(hnone t).1] at h
        contradiction
      once := by
        intro h
        rw [(hnone t).1] at h
        contradiction
      registered := registered }
  separate t _ buf h := by
    rw [(hnone t).1] at h
    contradiction

theorem view_forkCopy_self : (proc.forkCopy t thread).view t =
    (proc.forkCopy t thread).runtime thread := by
  simp [view, forkCopy]

theorem view_forkCopy_of_ne {t' : ThreadId} (hne : t' ≠ t) :
    (proc.forkCopy t thread).view t' = (proc.forkCopy t thread).runtime {} := by
  simp [view, forkCopy, hne]

/-- No thread of a forked child has a buffer: without the handler of `pthread_atfork`
there is none to drop. -/
theorem Ok.forkChild (ok : proc.Ok) (hthread : proc.threads t = some thread) :
    (proc.forkChild t thread).Ok ∧
      ∀ t', ((proc.forkChild t thread).view t').recordBuffer = none := by
  have hok : (proc.runtime thread).Ok := view_eq hthread ▸ ok.view t
  suffices h : ((proc.forkChild t thread).initProcessOnce = true →
      (proc.forkChild t thread).atforkDropBuffer = true ∧
        (proc.forkChild t thread).keyFinishBuffer = true) ∧
      ∀ t', ((proc.forkChild t thread).view t').recordBuffer = none ∧
        ((proc.forkChild t thread).view t').finishBufferKey = none from
    ⟨ok_of_none h.1 h.2, fun t' => (h.2 t').1⟩
  unfold Process.forkChild
  cases hatfork : proc.atforkDropBuffer with
  | true =>
      have dropped : Runtime.Dropped ((proc.forkCopy t thread).runtime thread) _ :=
        Runtime.dropBuffer_dropped
      refine ⟨(dropped.ok hok.registered).registered, fun t' => ?_⟩
      by_cases ht : t' = t
      · subst ht
        simp only [if_true, view_withRuntime_self]
        exact ⟨dropped.recordBuffer, dropped.finishBufferKey⟩
      · simp only [if_true, view_withRuntime_of_ne ht, view_forkCopy_of_ne ht]
        exact ⟨rfl, rfl⟩
  | false =>
      have hnone : thread.recordBuffer = none := by
        rw [← Option.not_isSome_iff_eq_none]
        intro hsome
        have := (hok.registered (hok.once hsome)).1
        rw [show proc.atforkDropBuffer = true from this] at hatfork
        contradiction
      refine ⟨hok.registered, fun t' => ?_⟩
      by_cases ht : t' = t
      · subst ht
        simp only [Bool.false_eq_true, if_false, view_forkCopy_self]
        exact ⟨hnone, hok.key.trans hnone⟩
      · simp only [Bool.false_eq_true, if_false, view_forkCopy_of_ne ht]
        exact ⟨rfl, rfl⟩

end

end Process

theorem retired_append (p : ProcessId) (t : ThreadId) (first second : List Event) :
    retired p t (first ++ second) = retired p t first ++ retired p t second :=
  List.filterMap_append

theorem retired_increment (p : ProcessId) (t : ThreadId) (fn : Address)
    (path : BitVec 32) (fresh : Address) (p' : ProcessId) (t' : ThreadId) :
    retired p' t' [.increment p t fn path fresh] =
      if p' = p ∧ t' = t then [⟨fn, path⟩] else [] := by
  by_cases h : p' = p ∧ t' = t
  · obtain ⟨rfl, rfl⟩ := h
    simp [retired]
  · have hother : ¬ (p = p' ∧ t = t') := fun h' => h ⟨h'.1.symm, h'.2.symm⟩
    simp [retired, h, hother]

namespace World

def Ok (w : World) : Prop :=
  ∀ p proc, w.processes p = some proc → proc.Ok

structure Logs (records : ProcessId → ThreadId → List PathRecord) (w w' : World) :
    Prop where
  ok : w'.Ok
  log : ∀ p t, w'.written p t ++ w'.buffered p t =
    w.written p t ++ w.buffered p t ++ records p t
  written : ∀ p t, w.written p t <+: w'.written p t

section

variable {w w' : World} {p : ProcessId} {proc proc' : Process} {t : ThreadId}
  {thread : Thread}

theorem setProcess_self : (w.setProcess p proc).processes p = some proc :=
  Function.update_self ..

theorem setProcess_of_ne {p' : ProcessId} (hne : p' ≠ p) :
    (w.setProcess p proc).processes p' = w.processes p' :=
  Function.update_of_ne hne ..

theorem Ok.setProcess (ok : w.Ok) (hproc : proc.Ok) : (w.setProcess p proc).Ok := by
  intro p' proc' h
  by_cases hp : p' = p
  · subst hp
    cases setProcess_self.symm.trans h
    exact hproc
  · exact ok p' proc' ((setProcess_of_ne hp).symm.trans h)

theorem buffered_eq (h : w.processes p = some proc) :
    w.buffered p t = (proc.view t).buffered := by
  simp [buffered, h]

theorem buffered_setProcess_self :
    (w.setProcess p proc).buffered p t = (proc.view t).buffered :=
  buffered_eq setProcess_self

theorem buffered_setProcess_of_ne {p' : ProcessId} (hne : p' ≠ p) :
    (w.setProcess p proc).buffered p' t = w.buffered p' t := by
  rw [buffered, setProcess_of_ne hne, buffered]

theorem Ok.logs_of_sameBuffers (ok : w.Ok) (hproc : w.processes p = some proc)
    (same : proc.SameBuffers proc') : Logs (fun _ _ => []) w (w.setProcess p proc') where
  ok := ok.setProcess (same.ok (ok p proc hproc))
  log p' t := by
    rw [List.append_nil]
    by_cases hp : p' = p
    · subst hp
      rw [buffered_setProcess_self, same.buffered, buffered_eq hproc]
      rfl
    · rw [buffered_setProcess_of_ne hp]
      rfl
  written _ _ := List.prefix_rfl

theorem records_of_writes (writes : List (List PathRecord)) (p' : ProcessId)
    (t' : ThreadId) :
    ((writes.map fun records => (⟨p, t, records⟩ : SysWrite)).filter fun write =>
        write.process = p' ∧ write.thread = t').flatMap SysWrite.records =
      if p' = p ∧ t' = t then writes.flatten else [] := by
  induction writes with
  | nil => simp
  | cons records rest ih =>
      by_cases h : p' = p ∧ t' = t
      · obtain ⟨rfl, rfl⟩ := h
        simpa using ih
      · have hother : ¬ (p = p' ∧ t = t') := fun h' => h ⟨h'.1.symm, h'.2.symm⟩
        simpa [h, hother] using ih

theorem act_eq_some {call : Runtime → Option Runtime}
    (h : w.act p proc t thread call = some w') :
    ∃ rt, call (proc.runtime thread) = some rt ∧
      (∀ p', w'.processes p' = (w.setProcess p (proc.withRuntime t thread rt)).processes p') ∧
      ∀ p' t', w'.written p' t' =
        w.written p' t' ++ if p' = p ∧ t' = t then rt.output.flatten else [] := by
  obtain ⟨rt, hrt, rfl⟩ := Option.map_eq_some_iff.mp h
  refine ⟨rt, hrt, fun _ => rfl, fun p' t' => ?_⟩
  simp only [written, List.filter_append, List.flatMap_append, records_of_writes]

theorem Ok.logs_of_act (ok : w.Ok) (hproc : w.processes p = some proc)
    (same : proc.SameBuffers proc') (hthread : proc'.threads t = some thread)
    {call : Runtime → Option Runtime} {records : List PathRecord}
    (hcall : ∀ rt, call (proc'.runtime thread) = some rt →
      Runtime.Retires records (proc'.runtime thread) rt)
    (h : w.act p proc' t thread call = some w') :
    Logs (fun p' t' => if p' = p ∧ t' = t then records else []) w w' := by
  obtain ⟨rt, hrt, hprocesses, hwritten⟩ := act_eq_some h
  have retires := hcall rt hrt
  have hok' := same.ok (ok p proc hproc)
  have hok := hok'.withRuntime hthread retires
  have hbuffered : ∀ p' t', w'.buffered p' t' =
      (w.setProcess p (proc'.withRuntime t thread rt)).buffered p' t' := by
    intro p' t'
    rw [buffered, buffered, hprocesses]
  refine ⟨fun p' other h' => ok.setProcess hok p' other ((hprocesses p').symm.trans h'),
    fun p' t' => ?_, fun p' t' => ?_⟩
  swap
  · rw [hwritten]
    exact List.prefix_append _ _
  rw [hwritten, hbuffered]
  by_cases hp : p' = p
  · subst hp
    rw [buffered_setProcess_self, buffered_eq hproc, ← same.buffered]
    by_cases ht : t' = t
    · subst ht
      rw [Process.view_withRuntime_self, Process.view_eq hthread, if_pos ⟨rfl, rfl⟩,
        if_pos ⟨rfl, rfl⟩]
      have hlog : rt.output.flatten ++ rt.buffered =
          (proc'.runtime thread).buffered ++ records := retires.log
      rw [List.append_assoc, List.append_assoc, ← hlog]
      rfl
    · rw [if_neg (fun h => ht h.2), if_neg (fun h => ht h.2), List.append_nil,
        List.append_nil, hok'.buffered_withRuntime hthread retires ht]
  · rw [if_neg (fun h => hp h.1), if_neg (fun h => hp h.1), List.append_nil,
      List.append_nil, buffered_setProcess_of_ne hp]

theorem Ok.logs_of_fork (ok : w.Ok) (hproc : w.processes p = some proc)
    (hthread : proc.threads t = some thread) {child : ProcessId}
    (hchild : w.processes child = none) :
    Logs (fun _ _ => []) w (w.setProcess child (proc.forkChild t thread)) := by
  obtain ⟨hok, hnone⟩ := (ok p proc hproc).forkChild hthread
  refine ⟨ok.setProcess hok, fun p' t' => ?_, fun _ _ => List.prefix_rfl⟩
  rw [List.append_nil]
  by_cases hp : p' = child
  · subst hp
    have hempty : w.buffered p' t' = [] := by simp [buffered, hchild]
    rw [buffered_setProcess_self, Runtime.buffered_none (hnone t'), hempty]
    rfl
  · rw [buffered_setProcess_of_ne hp]
    rfl

theorem Ok.logs_of_act_nil (ok : w.Ok) (hproc : w.processes p = some proc)
    (same : proc.SameBuffers proc') (hthread : proc'.threads t = some thread)
    {call : Runtime → Option Runtime}
    (hcall : ∀ rt, call (proc'.runtime thread) = some rt →
      Runtime.Retires [] (proc'.runtime thread) rt)
    (h : w.act p proc' t thread call = some w') : Logs (fun _ _ => []) w w' := by
  have logs := ok.logs_of_act hproc same hthread hcall h
  simpa only [ite_self] using logs

theorem of_eq_some {α : Type} {value : Option α} {spec : α → Prop}
    (returns : ∃ a, value = some a ∧ spec a) {a : α} (h : value = some a) : spec a := by
  obtain ⟨b, hb, hspec⟩ := returns
  cases hb.symm.trans h
  exact hspec

theorem Ok.runtime (ok : w.Ok) (hproc : w.processes p = some proc)
    (hthread : proc.threads t = some thread) : (proc.runtime thread).Ok :=
  Process.view_eq hthread ▸ (ok p proc hproc).view t

inductive Stepped (w : World) : Event → World → Prop
  | increment {p : ProcessId} {t : ThreadId} {fn : Address} {path : BitVec 32}
      {fresh : Address} {proc : Process} {thread : Thread} {w' : World}
      (hproc : w.processes p = some proc) (hthread : proc.threads t = some thread)
      (hfresh : thread.recordBuffer = none → proc.memory fresh = none)
      (hact : w.act p proc t thread (·.llvmIncrementPathCount fn path fresh) = some w') :
      Stepped w (.increment p t fn path fresh) w'
  | createThread {p : ProcessId} {t new : ThreadId} {proc : Process}
      (hproc : w.processes p = some proc) (hnew : proc.threads new = none) :
      Stepped w (.createThread p t new) (w.setProcess p
        { proc with threads := Function.update proc.threads new (some {}) })
  | exitThread {p : ProcessId} {t : ThreadId} {proc : Process} {thread : Thread}
      (hproc : w.processes p = some proc) (hthread : proc.threads t = some thread) :
      Stepped w (.exitThread p t) (w.setProcess p (proc.setStatus t thread .exiting))
  | runDestructor {p : ProcessId} {t : ThreadId} {proc : Process} {thread : Thread}
      {w' : World} (hproc : w.processes p = some proc)
      (hthread : proc.threads t = some thread) (hkey : thread.finishBufferKey.isSome)
      (hact : w.act p proc t thread Runtime.runDestructor = some w') :
      Stepped w (.runDestructor p t) w'
  | endThread {p : ProcessId} {t : ThreadId} {proc : Process} {thread : Thread}
      (hproc : w.processes p = some proc) (hthread : proc.threads t = some thread) :
      Stepped w (.endThread p t) (w.setProcess p (proc.setStatus t thread .gone))
  | fork {p child : ProcessId} {t : ThreadId} {proc : Process} {thread : Thread}
      (hproc : w.processes p = some proc) (hthread : proc.threads t = some thread)
      (hchild : w.processes child = none) :
      Stepped w (.fork p t child) (w.setProcess child (proc.forkChild t thread))
  | atexit {p : ProcessId} {t : ThreadId} {proc : Process}
      (hproc : w.processes p = some proc) :
      Stepped w (.atexit p t) (w.setProcess p
        { proc with atexitHandlers := .application :: proc.atexitHandlers })
  | exit {p : ProcessId} {t : ThreadId} {proc : Process}
      (hproc : w.processes p = some proc) (hrunning : proc.phase = .running) :
      Stepped w (.exit p t) (w.setProcess p { proc with phase := .exiting t false })
  | runApplication {p : ProcessId} {proc : Process} {caller : ThreadId}
      {inHandler : Bool} {rest : List Handler} (hproc : w.processes p = some proc)
      (hphase : proc.phase = .exiting caller inHandler)
      (hhandlers : proc.atexitHandlers = .application :: rest) :
      Stepped w (.runHandler p) (w.setProcess p
        { proc with atexitHandlers := rest, phase := .exiting caller true })
  | runHack {p : ProcessId} {proc : Process} {caller : ThreadId} {inHandler : Bool}
      {rest : List Handler} {thread : Thread} {w' : World}
      (hproc : w.processes p = some proc)
      (hphase : proc.phase = .exiting caller inHandler)
      (hhandlers : proc.atexitHandlers = .finishMainThreadBufferHack :: rest)
      (hthread : proc.threads caller = some thread)
      (hact : w.act p { proc with atexitHandlers := rest, phase := .exiting caller false }
        caller thread Runtime.finishMainThreadBufferHack = some w') :
      Stepped w (.runHandler p) w'
  | endProcess {p : ProcessId} {proc : Process} {caller : ThreadId} {inHandler : Bool}
      (hproc : w.processes p = some proc)
      (hphase : proc.phase = .exiting caller inHandler)
      (hhandlers : proc.atexitHandlers = []) :
      Stepped w (.endProcess p) (w.setProcess p { proc with phase := .gone })

theorem stepThread_eq_some {guard : Process → Thread → Prop}
    [∀ proc thread, Decidable (guard proc thread)] {step : Process → Thread → Option World}
    (h : w.stepThread p t (fun proc thread =>
      if guard proc thread then step proc thread else none) = some w') :
    ∃ proc thread, w.processes p = some proc ∧ proc.threads t = some thread ∧
      guard proc thread ∧ step proc thread = some w' := by
  obtain ⟨proc, hproc, h⟩ := Option.bind_eq_some_iff.mp h
  obtain ⟨thread, hthread, h⟩ := Option.bind_eq_some_iff.mp h
  obtain ⟨hguard, h⟩ := Option.ite_none_right_eq_some.mp h
  exact ⟨proc, thread, hproc, hthread, hguard, h⟩

theorem stepped_of_step {e : Event} (h : w.step e = some w') : Stepped w e w' := by
  cases e with
  | increment p t fn path fresh =>
      obtain ⟨proc, thread, hproc, hthread, ⟨_, hfresh⟩, h⟩ := stepThread_eq_some h
      exact .increment hproc hthread
        (fun hnone => Option.isNone_iff_eq_none.mp (hfresh hnone)) h
  | createThread p t new =>
      obtain ⟨proc, thread, hproc, _, ⟨_, hnew⟩, h⟩ := stepThread_eq_some h
      cases h
      exact .createThread hproc (Option.isNone_iff_eq_none.mp hnew)
  | exitThread p t =>
      obtain ⟨proc, thread, hproc, hthread, _, h⟩ := stepThread_eq_some h
      cases h
      exact .exitThread hproc hthread
  | runDestructor p t =>
      obtain ⟨proc, thread, hproc, hthread, ⟨_, _, _, hkey⟩, h⟩ := stepThread_eq_some h
      exact .runDestructor hproc hthread hkey h
  | endThread p t =>
      obtain ⟨proc, thread, hproc, hthread, _, h⟩ := stepThread_eq_some h
      cases h
      exact .endThread hproc hthread
  | fork p t child =>
      obtain ⟨proc, thread, hproc, hthread, ⟨_, hchild⟩, h⟩ := stepThread_eq_some h
      cases h
      exact .fork hproc hthread (Option.isNone_iff_eq_none.mp hchild)
  | atexit p t =>
      obtain ⟨proc, thread, hproc, _, _, h⟩ := stepThread_eq_some h
      cases h
      exact .atexit hproc
  | exit p t =>
      obtain ⟨proc, thread, hproc, _, ⟨_, hrunning⟩, h⟩ := stepThread_eq_some h
      cases h
      exact .exit hproc hrunning
  | runHandler p =>
      obtain ⟨proc, hproc, h⟩ := Option.bind_eq_some_iff.mp h
      split at h
      next caller inHandler handler rest hphase hhandlers =>
        cases handler with
        | application =>
            cases h
            exact @Stepped.runApplication w p proc _ _ _ hproc hphase hhandlers
        | finishMainThreadBufferHack =>
            obtain ⟨thread, hthread, h⟩ := Option.bind_eq_some_iff.mp h
            exact .runHack hproc hphase hhandlers hthread h
      next => contradiction
  | endProcess p =>
      obtain ⟨proc, hproc, h⟩ := Option.bind_eq_some_iff.mp h
      split at h
      next caller inHandler hphase hhandlers =>
        cases h
        exact .endProcess hproc hphase hhandlers
      next => contradiction

theorem Stepped.exists_process {e : Event} (stepped : Stepped w e w') :
    ∃ q, w'.processes q ≠ none ∧ ∀ p, p ≠ q →
      w'.processes p = w.processes p ∧ ∀ t, retired p t [e] = [] := by
  have hset : ∀ q proc, (w.setProcess q proc).processes q ≠ none := fun q proc =>
    ne_of_eq_of_ne setProcess_self (Option.some_ne_none _)
  have hact : ∀ {q proc t thread call}, w.act q proc t thread call = some w' →
      w'.processes q ≠ none ∧ ∀ p, p ≠ q → w'.processes p = w.processes p := by
    intro q proc t thread call h
    obtain ⟨rt, _, hprocesses, _⟩ := act_eq_some h
    refine ⟨hprocesses q ▸ hset q _, fun p hp => ?_⟩
    rw [hprocesses, setProcess_of_ne hp]
  cases stepped with
  | @increment q t fn path fresh _ _ _ hproc hthread hfresh h =>
      refine ⟨q, (hact h).1, fun p hp => ⟨(hact h).2 p hp, fun t' => ?_⟩⟩
      rw [retired_increment, if_neg fun h => hp h.1]
  | runDestructor _ _ _ h =>
      exact ⟨_, (hact h).1, fun p hp => ⟨(hact h).2 p hp, fun _ => rfl⟩⟩
  | runHack _ _ _ _ h =>
      exact ⟨_, (hact h).1, fun p hp => ⟨(hact h).2 p hp, fun _ => rfl⟩⟩
  | createThread _ _ | exitThread _ _ | endThread _ _ | fork _ _ _ | atexit _
  | exit _ _ | runApplication _ _ _ | endProcess _ _ _ =>
      exact ⟨_, hset _ _, fun p hp => ⟨setProcess_of_ne hp, fun _ => rfl⟩⟩

theorem Ok.hack_retires {proc' : Process} (ok : w.Ok) (hproc : w.processes p = some proc)
    (same : proc.SameBuffers proc') (hthread : proc'.threads t = some thread)
    {rt : Runtime} (h : (proc'.runtime thread).finishMainThreadBufferHack = some rt) :
    Runtime.Retires [] (proc'.runtime thread) rt ∧ rt.recordBuffer = none := by
  have hok := (same.ok (ok p proc hproc)).view t
  rw [Process.view_eq hthread] at hok
  obtain ⟨retires, hnone, _⟩ := of_eq_some (Runtime.finishMainThreadBufferHack_retires hok) h
  exact ⟨retires, hnone⟩

/-- Nothing is different for the threads other than `t` of process `p`. -/
def SameElsewhere (p : ProcessId) (t : ThreadId) (w w' : World) : Prop :=
  ∀ p' t', ¬ (p' = p ∧ t' = t) →
    w'.written p' t' = w.written p' t' ∧ w'.buffered p' t' = w.buffered p' t'

theorem SameElsewhere.trans {w'' : World} (first : SameElsewhere p t w w')
    (second : SameElsewhere p t w' w'') : SameElsewhere p t w w'' := by
  intro p' t' hother
  obtain ⟨hwritten, hbuffered⟩ := first p' t' hother
  obtain ⟨hwritten', hbuffered'⟩ := second p' t' hother
  exact ⟨hwritten'.trans hwritten, hbuffered'.trans hbuffered⟩

/-- Every step logs what it retires. -/
theorem Ok.logs_of_step (ok : w.Ok) {e : Event} (h : w.step e = some w') :
    Logs (fun p t => retired p t [e]) w w' := by
  cases stepped_of_step h with
  | increment hproc hthread hfresh hact =>
      simp only [retired_increment]
      refine ok.logs_of_act hproc (.refl _) hthread (fun rt hrt => ?_) hact
      exact (of_eq_some (Runtime.llvmIncrementPathCount_retires (ok.runtime hproc hthread)
        _ _ hfresh) hrt).1
  | createThread hproc hnew =>
      exact ok.logs_of_sameBuffers hproc (Process.sameBuffers_createThread hnew)
  | exitThread hproc hthread =>
      exact ok.logs_of_sameBuffers hproc (Process.sameBuffers_setStatus hthread _)
  | runDestructor hproc hthread hkey hact =>
      refine ok.logs_of_act_nil hproc (.refl _) hthread (fun rt hrt => ?_) hact
      exact (of_eq_some (Runtime.runDestructor_retires (ok.runtime hproc hthread) hkey)
        hrt).1
  | endThread hproc hthread =>
      exact ok.logs_of_sameBuffers hproc (Process.sameBuffers_setStatus hthread _)
  | fork hproc hthread hchild => exact ok.logs_of_fork hproc hthread hchild
  | atexit hproc =>
      exact ok.logs_of_sameBuffers hproc (Process.sameBuffers_withPhase _ _)
  | exit hproc _ =>
      exact ok.logs_of_sameBuffers hproc (Process.sameBuffers_withPhase _ _)
  | runApplication hproc _ _ =>
      exact ok.logs_of_sameBuffers hproc (Process.sameBuffers_withPhase _ _)
  | @runHack p proc caller _ rest _ _ hproc _ _ hthread hact =>
      have same : proc.SameBuffers
          { proc with atexitHandlers := rest, phase := .exiting caller false } :=
        Process.sameBuffers_withPhase _ _
      exact ok.logs_of_act_nil hproc same hthread
        (fun rt hrt => (ok.hack_retires hproc same hthread hrt).1) hact
  | endProcess hproc _ _ =>
      exact ok.logs_of_sameBuffers hproc (Process.sameBuffers_withPhase _ _)

theorem Ok.sameElsewhere_of_increment (ok : w.Ok) {fn : Address} {path : BitVec 32}
    {fresh : Address} (h : w.step (.increment p t fn path fresh) = some w') :
    SameElsewhere p t w w' := by
  intro p' t' hother
  have hwritten : w'.written p' t' = w.written p' t' := by
    cases stepped_of_step h with
    | increment _ _ _ hact =>
        obtain ⟨_, _, _, hwritten⟩ := act_eq_some hact
        rw [hwritten, if_neg hother, List.append_nil]
  have hlog := (ok.logs_of_step h).log p' t'
  rw [retired_increment, if_neg hother, List.append_nil, hwritten] at hlog
  exact ⟨hwritten, List.append_cancel_left hlog⟩

theorem initial_view (hproc : initial.processes p = some proc) (t : ThreadId) :
    (proc.view t).recordBuffer = none ∧ (proc.view t).finishBufferKey = none := by
  obtain ⟨_, h⟩ := Option.ite_none_right_eq_some.mp hproc
  cases h
  unfold Process.view
  by_cases ht : t = 0
  · simp [ht, Process.runtime]
  · simp [ht, Process.runtime]

theorem initial_ok : initial.Ok := by
  intro p proc hproc
  refine Process.ok_of_none ?_ (initial_view hproc)
  obtain ⟨_, h⟩ := Option.ite_none_right_eq_some.mp hproc
  cases h
  exact fun h => absurd h Bool.false_ne_true

theorem initial_buffered (p : ProcessId) (t : ThreadId) : initial.buffered p t = [] := by
  cases hproc : initial.processes p with
  | none => simp [buffered, hproc]
  | some proc =>
      rw [buffered_eq hproc]
      exact Runtime.buffered_none (initial_view hproc t).1

/-- The law of the log, along a run. -/
theorem log_of_run {events : List Event} (hrun : run step initial events = some w) :
    w.Ok ∧ ∀ p t, w.written p t ++ w.buffered p t = retired p t events := by
  apply run_invariant (P := fun events w => w.Ok ∧ ∀ p t,
    w.written p t ++ w.buffered p t = retired p t events) hrun
  · exact ⟨initial_ok, fun p t => initial_buffered p t⟩
  · rintro before middle e next _ ⟨ok, hlog⟩ hstep
    have logs := ok.logs_of_step hstep
    refine ⟨logs.ok, fun p t => ?_⟩
    rw [logs.log, hlog, retired_append]

/-! Where a buffer is emptied. -/

theorem written_of_run (ok : w.Ok) {events : List Event} (hrun : run step w events = some w') :
    w'.Ok ∧ ∀ p t, w.written p t <+: w'.written p t := by
  apply run_invariant (P := fun _ w' => w'.Ok ∧ ∀ p t,
    w.written p t <+: w'.written p t) hrun
  · exact ⟨ok, fun _ _ => List.prefix_rfl⟩
  · rintro before middle e next _ ⟨ok, hwritten⟩ hstep
    have logs := ok.logs_of_step hstep
    exact ⟨logs.ok, fun p t => (hwritten p t).trans (logs.written p t)⟩

theorem buffered_of_act {call : Runtime → Option Runtime}
    (h : w.act p proc t thread call = some w')
    (hcall : ∀ rt, call (proc.runtime thread) = some rt → rt.recordBuffer = none) :
    w'.buffered p t = [] := by
  obtain ⟨rt, hrt, hprocesses, _⟩ := act_eq_some h
  rw [buffered_eq ((hprocesses p).trans setProcess_self),
    Process.view_withRuntime_self]
  exact Runtime.buffered_none (hcall rt hrt)

theorem Ok.buffered_of_runDestructor (ok : w.Ok)
    (h : w.step (.runDestructor p t) = some w') : w'.buffered p t = [] := by
  cases stepped_of_step h with
  | runDestructor hproc hthread hkey hact =>
      refine buffered_of_act hact (fun rt hrt => ?_)
      exact (of_eq_some (Runtime.runDestructor_retires (ok.runtime hproc hthread) hkey)
        hrt).2.1

theorem retired_prefix_written {w₁ w₂ : World} {e : Event} {before after : List Event}
    (hbefore : run step initial before = some w₁) (hstep : w₁.step e = some w₂)
    (hafter : run step w₂ after = some w') (hretired : retired p t [e] = [])
    (hempty : w₂.buffered p t = []) : retired p t before <+: w'.written p t := by
  obtain ⟨ok, hlog⟩ := log_of_run (run_concat.mpr ⟨w₁, hbefore, hstep⟩)
  have hall := hlog p t
  rw [hempty, List.append_nil, retired_append, hretired, List.append_nil] at hall
  rw [← hall]
  exact (written_of_run ok hafter).2 p t

/-- What a thread has retired up to the last run of its destructor is written. -/
theorem written_of_runDestructor {before after : List Event}
    (hrun : run step initial (before ++ .runDestructor p t :: after) = some w) :
    retired p t before <+: w.written p t ∧
      (retired p t after = [] →
        w.written p t = retired p t (before ++ .runDestructor p t :: after)) := by
  obtain ⟨w₁, hbefore, hafter⟩ := run_append.mp hrun
  obtain ⟨w₂, hstep, hafter⟩ := run_cons.mp hafter
  have ok := (log_of_run hbefore).1
  have hwritten := retired_prefix_written hbefore hstep hafter rfl
    (ok.buffered_of_runDestructor hstep)
  refine ⟨hwritten, fun hnone => ?_⟩
  have hall : retired p t (before ++ .runDestructor p t :: after) = retired p t before := by
    rw [retired_append, ← List.singleton_append, retired_append, hnone]
    exact List.append_nil _
  have hlog : w.written p t <+: retired p t before := by
    rw [← hall, ← (log_of_run hrun).2 p t]
    exact List.prefix_append _ _
  rw [hall]
  exact hlog.eq_of_length_le hwritten.length_le

theorem Ok.exists_increment (ok : w.Ok) (hproc : w.processes p = some proc)
    (hthread : proc.threads t = some thread) (hrunnable : proc.runnable t thread)
    (fn : Address) (path : BitVec 32) {fresh : Address}
    (hfresh : thread.recordBuffer = none → proc.memory fresh = none) :
    ∃ w', w.step (.increment p t fn path fresh) = some w' := by
  obtain ⟨rt, hrt, _⟩ := Runtime.llvmIncrementPathCount_retires
    (ok.runtime hproc hthread) fn path hfresh
  have hguard := And.intro hrunnable hfresh
  simpa [step, stepThread, hproc, hthread, act, hrt] using hguard

theorem Ok.exists_runDestructor (ok : w.Ok) (hproc : w.processes p = some proc)
    (hthread : proc.threads t = some thread) (hrunnable : proc.runnable t thread)
    (hexiting : thread.status = .exiting) (hkey : thread.finishBufferKey.isSome) :
    ∃ w', w.step (.runDestructor p t) = some w' := by
  have hok := ok.runtime hproc hthread
  obtain ⟨rt, hrt, _⟩ := Runtime.runDestructor_retires hok hkey
  have honce : proc.initProcessOnce = true := hok.once (hok.key ▸ hkey)
  have hregistered : proc.keyFinishBuffer = true := (hok.registered honce).2
  simp [step, stepThread, hproc, hthread, hrunnable, hexiting, hregistered, hkey, act,
    hrt]

end

end World

/-- In every interleaving each thread has written, or holds in its buffer, exactly the
records it has retired, in order, and has written all of them if none came after the last
run of its destructor.  Its buffer has room for the next one, and no call goes astray. -/
theorem runtime_is_lossless {events : List Event} {w : World}
    (hrun : run World.step World.initial events = some w) :
    (∀ p t, w.written p t ++ w.buffered p t = retired p t events) ∧
      (∀ p t before after, events = before ++ .runDestructor p t :: after →
        retired p t after = [] → w.written p t = retired p t events) ∧
      ∀ p proc t thread, w.processes p = some proc → proc.threads t = some thread →
        (∀ buf, thread.recordBuffer = some buf → ∃ records,
          proc.memory buf = some records ∧ records.len < pathRecordBufferSize) ∧
        (proc.runnable t thread →
          (∀ fn path fresh,
            (thread.recordBuffer = none → proc.memory fresh = none) →
            ∃ w', w.step (.increment p t fn path fresh) = some w') ∧
          (thread.status = .exiting → thread.finishBufferKey.isSome →
            ∃ w', w.step (.runDestructor p t) = some w')) := by
  obtain ⟨ok, hlog⟩ := World.log_of_run hrun
  refine ⟨hlog, ?_, fun p proc t thread hproc hthread => ⟨?_, fun hrunnable => ⟨?_, ?_⟩⟩⟩
  · rintro p t before after rfl
    exact (World.written_of_runDestructor hrun).2
  · have hok := (ok p proc hproc).view t
    rw [Process.view_eq hthread] at hok
    exact hok.buffer
  · intro fn path fresh hfresh
    exact ok.exists_increment hproc hthread hrunnable fn path hfresh
  · exact ok.exists_runDestructor hproc hthread hrunnable

def sampleRun : List Event :=
  [ .increment 0 0 10 1 100, .createThread 0 0 1, .increment 0 1 10 2 200,
    .fork 0 1 5, .increment 5 1 10 3 200, .increment 0 1 10 4 300,
    .exitThread 0 1, .runDestructor 0 1, .increment 0 1 11 5 200 ]

theorem runtime_is_lossless_sampleRun :
    ∃ w, run World.step World.initial sampleRun = some w ∧
      w.written 0 1 ++ w.buffered 0 1 = [⟨10, 2⟩, ⟨10, 4⟩, ⟨11, 5⟩] ∧
      w.written 5 1 ++ w.buffered 5 1 = [⟨10, 3⟩] := by
  have hsome : (run World.step World.initial sampleRun).isSome := by decide +kernel
  obtain ⟨w, hrun⟩ := Option.isSome_iff_exists.mp hsome
  have hlog := (runtime_is_lossless hrun).1
  exact ⟨w, hrun, (hlog 0 1).trans (by decide), (hlog 5 1).trans (by decide)⟩

end RrWorkbench.PathRuntime
