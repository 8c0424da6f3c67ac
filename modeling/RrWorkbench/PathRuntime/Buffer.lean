import Mathlib.Data.List.TakeDrop
import Mathlib.Logic.Function.Basic

namespace RrWorkbench.PathRuntime

/-! The functions of `path_logging.c`, as one thread runs them.  An access outside a
mapped buffer, or past the end of its array, has no result. -/

abbrev Address := Nat

structure PathRecord where
  fn : Address
  path : BitVec 32
  deriving DecidableEq, Repr

/-- `PATH_RECORD_BUFFER_SIZE`, which is `1 << 5`. -/
abbrev pathRecordBufferSize : Nat := 32

structure PathRecords where
  recs : Vector PathRecord pathRecordBufferSize
  len : Nat

namespace PathRecords

def zeroed : PathRecords :=
  { recs := Vector.replicate pathRecordBufferSize ⟨0, 0⟩, len := 0 }

def contents (records : PathRecords) : List PathRecord :=
  records.recs.toList.take records.len

def push (records : PathRecords) (h : records.len < pathRecordBufferSize)
    (record : PathRecord) : PathRecords :=
  { recs := records.recs.set records.len record, len := records.len + 1 }

theorem contents_reset (records : PathRecords) :
    ({ records with len := 0 } : PathRecords).contents = [] := rfl

theorem contents_push (records : PathRecords)
    (h : records.len < pathRecordBufferSize) (record : PathRecord) :
    (records.push h record).contents = records.contents ++ [record] := by
  have hlength : records.len < records.recs.toList.length := by simpa using h
  have htake : (records.recs.toList.take records.len).length = records.len :=
    List.length_take_of_le (Nat.le_of_lt hlength)
  simp only [contents, push, Vector.toList_set]
  rw [List.set_eq_take_append_cons_drop, if_pos hlength, List.take_append, htake,
    List.take_of_length_le (by omega)]
  simp

end PathRecords

inductive Handler
  | application
  | finishMainThreadBufferHack
  deriving DecidableEq, Repr

/-- What a thread sees of its process: the mapped buffers, its thread-local pointer
and its value of the key, what `init_process` has registered, and the data of its
calls of `sys_write`. -/
structure Runtime where
  memory : Address → Option PathRecords
  recordBuffer : Option Address
  finishBufferKey : Option Address
  initProcessOnce : Bool
  atforkDropBuffer : Bool
  keyFinishBuffer : Bool
  atexitHandlers : List Handler
  output : List (List PathRecord)

namespace Runtime

def store (rt : Runtime) (buf : Address) (records : Option PathRecords) : Runtime :=
  { rt with memory := Function.update rt.memory buf records }

/-- The write takes `len` records from the array, so `len` must not exceed it. -/
def flushBuffer (rt : Runtime) (buf : Address) : Option Runtime :=
  (rt.memory buf).bind fun records =>
    if records.len ≤ pathRecordBufferSize then
      some ({ rt with output := rt.output ++ [records.contents] }.store buf
        (some { records with len := 0 }))
    else none

def munmap (rt : Runtime) : Option Address → Runtime
  | none => rt
  | some buf => rt.store buf none

def dropBuffer (rt : Runtime) : Runtime :=
  { rt with finishBufferKey := none, recordBuffer := none }.munmap rt.recordBuffer

def finishBuffer (rt : Runtime) (buf : Address) : Option Runtime :=
  (rt.flushBuffer buf).map dropBuffer

def finishMainThreadBufferHack (rt : Runtime) : Option Runtime :=
  match rt.recordBuffer with
  | none => some rt
  | some buf => rt.finishBuffer buf

/-- The end of a thread calls the destructor of the key, after it has cleared the
value. -/
def runDestructor (rt : Runtime) : Option Runtime :=
  match rt.finishBufferKey with
  | none => none
  | some buf => { rt with finishBufferKey := none }.finishBuffer buf

def initProcess (rt : Runtime) : Runtime :=
  { rt with
    atforkDropBuffer := true
    keyFinishBuffer := true
    atexitHandlers := .finishMainThreadBufferHack :: rt.atexitHandlers }

def pthreadOnce (rt : Runtime) : Runtime :=
  if rt.initProcessOnce then rt else { rt.initProcess with initProcessOnce := true }

def mapBuffer (rt : Runtime) (buf : Address) : Runtime :=
  { rt.store buf (some .zeroed) with
    recordBuffer := some buf, finishBufferKey := some buf }

/-- `fresh` is the address that `mmap` returns if there is no buffer yet. -/
def ensureThreadInit (rt : Runtime) (fresh : Address) : Runtime × Address :=
  match rt.recordBuffer with
  | some buf => (rt, buf)
  | none =>
      (rt.pthreadOnce.mapBuffer fresh, fresh)

def appendRecord (rt : Runtime) (buf : Address) (record : PathRecord) :
    Option Runtime :=
  (rt.memory buf).bind fun records =>
    if h : records.len < pathRecordBufferSize then
      let rt := rt.store buf (some (records.push h record))
      if pathRecordBufferSize = records.len + 1 then rt.flushBuffer buf else some rt
    else none

def llvmIncrementPathCount (rt : Runtime) (fn : Address) (path : BitVec 32)
    (fresh : Address) : Option Runtime :=
  let (rt, buf) := rt.ensureThreadInit fresh
  rt.appendRecord buf ⟨fn, path⟩

/-! What a call leaves behind. -/

def buffered (rt : Runtime) : List PathRecord :=
  match rt.recordBuffer.bind rt.memory with
  | none => []
  | some records => records.contents

/-- Between two calls the key and the thread-local pointer agree, and there is room
for a record. -/
structure Ok (rt : Runtime) : Prop where
  key : rt.finishBufferKey = rt.recordBuffer
  buffer : ∀ buf, rt.recordBuffer = some buf →
    ∃ records, rt.memory buf = some records ∧ records.len < pathRecordBufferSize
  once : rt.recordBuffer.isSome → rt.initProcessOnce = true
  registered : rt.initProcessOnce = true →
    rt.atforkDropBuffer = true ∧ rt.keyFinishBuffer = true

/-- From `rt` to `rt'` the thread has retired the records `retired`, and nothing is
lost.  The memory of other threads is not touched. -/
structure Retires (retired : List PathRecord) (rt rt' : Runtime) : Prop where
  ok : rt'.Ok
  log : rt'.output.flatten ++ rt'.buffered =
    rt.output.flatten ++ rt.buffered ++ retired
  frame : ∀ a, rt.recordBuffer ≠ some a → rt'.recordBuffer ≠ some a →
    rt'.memory a = rt.memory a
  fresh : ∀ a, rt'.recordBuffer = some a →
    rt.recordBuffer = some a ∨ rt.memory a = none
  once : rt.initProcessOnce = true → rt'.initProcessOnce = true

section Specs

variable {rt : Runtime} {buf fresh : Address} {records : PathRecords}

@[simp] theorem store_memory_self (records : Option PathRecords) :
    (rt.store buf records).memory buf = records :=
  Function.update_self ..

theorem store_memory_of_ne {a : Address} (hne : a ≠ buf)
    (records : Option PathRecords) :
    (rt.store buf records).memory a = rt.memory a :=
  Function.update_of_ne hne ..

theorem buffered_none (h : rt.recordBuffer = none) : rt.buffered = [] := by
  simp [buffered, h]

theorem buffered_some (h : rt.recordBuffer = some buf)
    (hmemory : rt.memory buf = some records) : rt.buffered = records.contents := by
  simp [buffered, h, hmemory]

theorem flushBuffer_eq (hmemory : rt.memory buf = some records)
    (hlen : records.len ≤ pathRecordBufferSize) :
    rt.flushBuffer buf =
      some ({ rt with output := rt.output ++ [records.contents] }.store buf
        (some { records with len := 0 })) := by
  simp [flushBuffer, hmemory, hlen]

theorem Ok.retires_of_store (ok : rt.Ok) (h : rt.recordBuffer = some buf)
    (written : List PathRecord) {retired : List PathRecord}
    {output : List (List PathRecord)}
    (houtput : output.flatten = rt.output.flatten ++ written)
    (hlen : records.len < pathRecordBufferSize)
    (hlog : written ++ records.contents = rt.buffered ++ retired) :
    Retires retired rt ({ rt with output := output }.store buf (some records)) where
  ok :=
    { key := ok.key
      buffer := by
        intro a ha
        cases h.symm.trans ha
        exact ⟨records, store_memory_self _, hlen⟩
      once := ok.once
      registered := ok.registered }
  log := by
    have hbuffered :
        ({ rt with output := output }.store buf (some records)).buffered =
          records.contents := buffered_some h (store_memory_self _)
    rw [hbuffered]
    change output.flatten ++ _ = _
    rw [houtput, List.append_assoc, hlog, List.append_assoc]
  frame a ha _ := store_memory_of_ne (by rintro rfl; exact ha h) _
  fresh a ha := .inl ha
  once h := h

theorem appendRecord_retires (ok : rt.Ok) (h : rt.recordBuffer = some buf)
    (record : PathRecord) :
    ∃ rt', rt.appendRecord buf record = some rt' ∧ Retires [record] rt rt' ∧
      rt'.recordBuffer = some buf ∧ rt'.atexitHandlers = rt.atexitHandlers := by
  obtain ⟨records, hmemory, hlen⟩ := ok.buffer buf h
  have hbuffered := buffered_some h hmemory
  by_cases hfull : pathRecordBufferSize = records.len + 1
  · let full := records.push hlen record
    refine ⟨{ rt with output := rt.output ++ [full.contents] }.store buf
      (some { full with len := 0 }), ?_, ?_, h, rfl⟩
    · have hflush : (rt.store buf (some full)).flushBuffer buf = _ :=
        flushBuffer_eq (store_memory_self _) hlen
      simp only [appendRecord, hmemory, Option.bind_some, dif_pos hlen, if_pos hfull]
      refine hflush.trans ?_
      simp [store]
    · refine ok.retires_of_store h full.contents ?_ (Nat.zero_lt_succ _) ?_
      · simp
      · rw [PathRecords.contents_reset, PathRecords.contents_push, hbuffered,
          List.append_nil]
  · refine ⟨rt.store buf (some (records.push hlen record)), ?_, ?_, h, rfl⟩
    · simp only [appendRecord, hmemory, Option.bind_some, dif_pos hlen, if_neg hfull]
    · refine ok.retires_of_store h [] (by simp) ?_ ?_
      · change records.len + 1 < pathRecordBufferSize
        omega
      · rw [PathRecords.contents_push, hbuffered, List.nil_append]

theorem Retires.refl (ok : rt.Ok) : Retires [] rt rt where
  ok := ok
  log := (List.append_nil _).symm
  frame _ _ _ := rfl
  fresh _ ha := .inl ha
  once h := h

theorem Retires.trans {first second : List PathRecord} {rt' rt'' : Runtime}
    (h : Retires first rt rt') (h' : Retires second rt' rt'')
    (hbuffer : rt'.recordBuffer = rt''.recordBuffer) :
    Retires (first ++ second) rt rt'' where
  ok := h'.ok
  log := by rw [h'.log, h.log, List.append_assoc]
  frame a ha ha' :=
    (h'.frame a (hbuffer ▸ ha') ha').trans (h.frame a ha (hbuffer ▸ ha'))
  fresh a ha := h.fresh a (hbuffer ▸ ha)
  once honce := h'.once (h.once honce)

/-- `init_process` runs at most once, and registers what a buffer needs. -/
theorem pthreadOnce_initProcessOnce : rt.pthreadOnce.initProcessOnce = true := by
  unfold pthreadOnce
  cases h : rt.initProcessOnce with
  | true => simpa using h
  | false => rfl

theorem pthreadOnce_registered (ok : rt.Ok) :
    rt.pthreadOnce.atforkDropBuffer = true ∧ rt.pthreadOnce.keyFinishBuffer = true := by
  unfold pthreadOnce
  cases h : rt.initProcessOnce with
  | true => simpa using ok.registered h
  | false => exact ⟨rfl, rfl⟩

theorem pthreadOnce_memory : rt.pthreadOnce.memory = rt.memory := by
  unfold pthreadOnce
  split <;> rfl

theorem pthreadOnce_output : rt.pthreadOnce.output = rt.output := by
  unfold pthreadOnce
  split <;> rfl

theorem ensureThreadInit_retires (ok : rt.Ok)
    (hfresh : rt.recordBuffer = none → rt.memory fresh = none) :
    Retires [] rt (rt.ensureThreadInit fresh).1 ∧
      (rt.ensureThreadInit fresh).1.recordBuffer =
        some (rt.ensureThreadInit fresh).2 := by
  unfold ensureThreadInit
  cases h : rt.recordBuffer with
  | some buf => exact ⟨.refl ok, h⟩
  | none =>
      refine ⟨?_, rfl⟩
      have hmemory : (rt.pthreadOnce.mapBuffer fresh).memory fresh = some .zeroed :=
        store_memory_self _
      refine
        { ok := ⟨rfl, ?_, fun _ => pthreadOnce_initProcessOnce,
            fun _ => pthreadOnce_registered ok⟩
          log := ?_
          frame := ?_
          fresh := ?_
          once := fun _ => pthreadOnce_initProcessOnce }
      · intro a ha
        cases ha
        exact ⟨.zeroed, hmemory, Nat.zero_lt_succ _⟩
      · have hbuffered : (rt.pthreadOnce.mapBuffer fresh).buffered = [] :=
          buffered_some rfl hmemory
        have houtput : (rt.pthreadOnce.mapBuffer fresh).output = rt.output :=
          pthreadOnce_output
        rw [hbuffered, houtput, buffered_none h, List.append_nil, List.append_nil]
      · intro a _ ha
        have hne : a ≠ fresh := by
          rintro rfl
          exact ha rfl
        exact (store_memory_of_ne hne _).trans (congrFun pthreadOnce_memory a)
      · intro a ha
        cases ha
        exact .inr (hfresh h)

theorem ensureThreadInit_handlers :
    (rt.ensureThreadInit fresh).1.atexitHandlers = rt.atexitHandlers ∨
      (rt.ensureThreadInit fresh).1.atexitHandlers =
        .finishMainThreadBufferHack :: rt.atexitHandlers := by
  unfold ensureThreadInit
  cases rt.recordBuffer with
  | some buf => exact .inl rfl
  | none =>
      change rt.pthreadOnce.atexitHandlers = _ ∨ rt.pthreadOnce.atexitHandlers = _
      unfold pthreadOnce
      cases rt.initProcessOnce with
      | true => exact .inl rfl
      | false => exact .inr rfl

theorem llvmIncrementPathCount_retires (ok : rt.Ok) (fn : Address)
    (path : BitVec 32) (hfresh : rt.recordBuffer = none → rt.memory fresh = none) :
    ∃ rt', rt.llvmIncrementPathCount fn path fresh = some rt' ∧
      Retires [⟨fn, path⟩] rt rt' ∧
      (rt'.atexitHandlers = rt.atexitHandlers ∨
        rt'.atexitHandlers = .finishMainThreadBufferHack :: rt.atexitHandlers) := by
  obtain ⟨hinit, hbuffer⟩ := ensureThreadInit_retires ok hfresh
  obtain ⟨rt', happend, hretires, hsame, hhandlers⟩ :=
    appendRecord_retires hinit.ok hbuffer ⟨fn, path⟩
  refine ⟨rt', happend, hinit.trans hretires (hbuffer.trans hsame.symm), ?_⟩
  rw [hhandlers]
  exact ensureThreadInit_handlers

theorem llvmIncrementPathCount_recordBuffer (ok : rt.Ok) {fn : Address}
    {path : BitVec 32} (hfresh : rt.recordBuffer = none → rt.memory fresh = none)
    {rt' : Runtime} (h : rt.llvmIncrementPathCount fn path fresh = some rt') :
    rt'.recordBuffer ≠ none := by
  obtain ⟨hinit, hbuffer⟩ := ensureThreadInit_retires ok hfresh
  obtain ⟨rt'', happend, _, hsame, _⟩ := appendRecord_retires hinit.ok hbuffer ⟨fn, path⟩
  obtain rfl : rt'' = rt' := Option.some.inj (happend.symm.trans h)
  rw [hsame]
  exact Option.some_ne_none _

structure Dropped (rt rt' : Runtime) : Prop where
  recordBuffer : rt'.recordBuffer = none
  finishBufferKey : rt'.finishBufferKey = none
  output : rt'.output = rt.output
  initProcessOnce : rt'.initProcessOnce = rt.initProcessOnce
  atforkDropBuffer : rt'.atforkDropBuffer = rt.atforkDropBuffer
  keyFinishBuffer : rt'.keyFinishBuffer = rt.keyFinishBuffer
  atexitHandlers : rt'.atexitHandlers = rt.atexitHandlers
  memory : ∀ a, rt.recordBuffer ≠ some a → rt'.memory a = rt.memory a

theorem dropBuffer_dropped : Dropped rt rt.dropBuffer := by
  unfold dropBuffer
  cases h : rt.recordBuffer with
  | none => exact ⟨rfl, rfl, rfl, rfl, rfl, rfl, rfl, fun _ _ => rfl⟩
  | some buf =>
      refine ⟨rfl, rfl, rfl, rfl, rfl, rfl, rfl, fun a ha => ?_⟩
      apply store_memory_of_ne
      rintro rfl
      exact ha h

theorem Dropped.ok {rt' : Runtime} (dropped : Dropped rt rt')
    (registered : rt.initProcessOnce = true →
      rt.atforkDropBuffer = true ∧ rt.keyFinishBuffer = true) : rt'.Ok where
  key := dropped.finishBufferKey.trans dropped.recordBuffer.symm
  buffer buf h := by
    rw [dropped.recordBuffer] at h
    contradiction
  once h := by
    rw [dropped.recordBuffer] at h
    contradiction
  registered h := by
    rw [dropped.atforkDropBuffer, dropped.keyFinishBuffer]
    apply registered
    rw [← dropped.initProcessOnce]
    exact h

theorem finishBuffer_retires (ok : rt.Ok) (h : rt.recordBuffer = some buf)
    (key : Option Address) :
    ∃ rt', { rt with finishBufferKey := key }.finishBuffer buf = some rt' ∧
      Retires [] rt rt' ∧ rt'.recordBuffer = none ∧
      rt'.atexitHandlers = rt.atexitHandlers := by
  obtain ⟨records, hmemory, hlen⟩ := ok.buffer buf h
  let flushed := { rt with
    finishBufferKey := key, output := rt.output ++ [records.contents] }.store buf
      (some { records with len := 0 })
  have hflush : { rt with finishBufferKey := key }.flushBuffer buf = some flushed :=
    flushBuffer_eq hmemory (Nat.le_of_lt hlen)
  have dropped : Dropped flushed flushed.dropBuffer := dropBuffer_dropped
  refine ⟨flushed.dropBuffer, congrArg (Option.map dropBuffer) hflush, ?_,
    dropped.recordBuffer, dropped.atexitHandlers⟩
  refine
    { ok := dropped.ok ok.registered
      log := ?_
      frame := ?_
      fresh := ?_
      once := fun h => dropped.initProcessOnce.trans h }
  · rw [buffered_none dropped.recordBuffer, buffered_some h hmemory, dropped.output]
    simp [flushed, store]
  · intro a ha _
    refine (dropped.memory a ha).trans (store_memory_of_ne ?_ _)
    rintro rfl
    exact ha h
  · intro a ha
    rw [dropped.recordBuffer] at ha
    contradiction

/-- The hack, like the destructor of the key, leaves nothing in the buffer. -/
theorem finishMainThreadBufferHack_retires (ok : rt.Ok) :
    ∃ rt', rt.finishMainThreadBufferHack = some rt' ∧ Retires [] rt rt' ∧
      rt'.recordBuffer = none ∧ rt'.atexitHandlers = rt.atexitHandlers := by
  unfold finishMainThreadBufferHack
  cases h : rt.recordBuffer with
  | none => exact ⟨rt, rfl, .refl ok, h, rfl⟩
  | some buf => exact finishBuffer_retires ok h rt.finishBufferKey

theorem runDestructor_retires (ok : rt.Ok) (hkey : rt.finishBufferKey.isSome) :
    ∃ rt', rt.runDestructor = some rt' ∧ Retires [] rt rt' ∧
      rt'.recordBuffer = none ∧ rt'.atexitHandlers = rt.atexitHandlers := by
  unfold runDestructor
  cases h : rt.finishBufferKey with
  | none =>
      rw [h] at hkey
      contradiction
  | some buf => exact finishBuffer_retires ok (ok.key.symm.trans h) none

end Specs

end Runtime

end RrWorkbench.PathRuntime
