import RrWorkbench.Data.Run
import RrWorkbench.PathRuntime.Buffer

namespace RrWorkbench.PathRuntime

open RrWorkbench.Data

/-! `llvm_increment_path_count` in a thread whose signal handlers call it too.  Between
any two steps of a call another one may begin; it ends before the interrupted call
goes on. -/

/-- The next step of a call.  `index` is that of the record it has taken. -/
inductive Pc
  | incrementLen
  | storeFn (index : Nat)
  | storePath (index : Nat)
  | compare
  | write
  | resetLen
  deriving DecidableEq, Repr

namespace Pc

def isStoring : Pc → Bool
  | .storeFn _ | .storePath _ => true
  | _ => false

def isFlushing : Pc → Bool
  | .write | .resetLen => true
  | _ => false

def index? : Pc → Option Nat
  | .storeFn index | .storePath index => some index
  | _ => none

end Pc

structure Call where
  record : PathRecord
  pc : Pc
  deriving DecidableEq, Repr

/-- `calls` are the calls in progress, innermost first; `taken` are the records in the
order in which calls have taken a place for them. -/
structure Reentrant where
  buffer : PathRecords
  calls : List Call
  output : List (List PathRecord)
  taken : List PathRecord

namespace Reentrant

inductive Event
  /-- A call begins, interrupting those in progress. -/
  | call (record : PathRecord)
  /-- The innermost call takes its next step. -/
  | step
  deriving DecidableEq, Repr

def initial : Reentrant :=
  { buffer := .zeroed, calls := [], output := [], taken := [] }

def written (s : Reentrant) : List PathRecord := s.output.flatten

def withRecord (s : Reentrant) (index : Nat) (h : index < pathRecordBufferSize)
    (stored : PathRecord) (calls : List Call) : Reentrant :=
  { s with
    buffer := { s.buffer with recs := s.buffer.recs.set index stored }
    calls := calls }

/-- A store to `recs[index]`; past the array it has no result. -/
def storeRecord (s : Reentrant) (index : Nat) (change : PathRecord → PathRecord)
    (calls : List Call) : Option Reentrant :=
  if h : index < pathRecordBufferSize then
    some (s.withRecord index h (change s.buffer.recs[index]) calls)
  else none

def stepCall (s : Reentrant) (record : PathRecord) (rest : List Call) :
    Pc → Option Reentrant
  | .incrementLen =>
      some { s with
        buffer := { s.buffer with len := s.buffer.len + 1 }
        calls := ⟨record, .storeFn s.buffer.len⟩ :: rest
        taken := s.taken ++ [record] }
  | .storeFn index =>
      s.storeRecord index (fun stored => { stored with fn := record.fn })
        (⟨record, .storePath index⟩ :: rest)
  | .storePath index =>
      s.storeRecord index (fun stored => { stored with path := record.path })
        (⟨record, .compare⟩ :: rest)
  | .compare =>
      if pathRecordBufferSize = s.buffer.len then
        some { s with calls := ⟨record, .write⟩ :: rest }
      else some { s with calls := rest }
  | .write =>
      if s.buffer.len ≤ pathRecordBufferSize then
        some { s with
          calls := ⟨record, .resetLen⟩ :: rest
          output := s.output ++ [s.buffer.contents] }
      else none
  | .resetLen =>
      some { s with buffer := { s.buffer with len := 0 }, calls := rest }

def step (s : Reentrant) : Event → Option Reentrant
  | .call record => some { s with calls := ⟨record, .incrementLen⟩ :: s.calls }
  | .step =>
      match s.calls with
      | [] => none
      | call :: rest => s.stepCall call.record rest call.pc

/-- The innermost of `calls` takes a place only if there is one, and not the last one
as long as an interrupted call has not completed its record. -/
def SpacedCalls (s : Reentrant) : List Call → Prop
  | ⟨_, .incrementLen⟩ :: rest =>
      s.buffer.len < pathRecordBufferSize ∧
        ((∃ call ∈ rest, call.pc.isStoring = true) →
          s.buffer.len + 1 < pathRecordBufferSize)
  | _ => True

def Spaced (s : Reentrant) : Event → Prop
  | .call _ => True
  | .step => s.SpacedCalls s.calls

instance (s : Reentrant) : DecidablePred s.SpacedCalls
  | [] => .isTrue trivial
  | ⟨_, .incrementLen⟩ :: _ => inferInstanceAs (Decidable (_ ∧ _))
  | ⟨_, .storeFn _⟩ :: _ | ⟨_, .storePath _⟩ :: _ | ⟨_, .compare⟩ :: _
  | ⟨_, .write⟩ :: _ | ⟨_, .resetLen⟩ :: _ => .isTrue trivial

instance (s : Reentrant) : DecidablePred s.Spaced
  | .call _ => .isTrue trivial
  | .step => inferInstanceAs (Decidable (s.SpacedCalls s.calls))

/-! The places below `len` hold the records taken since the last flush, up to stores
that an interrupted call has still to make. -/

/-- Place `index` holds `record`, or a call in progress will store the rest of it. -/
def Holds (s : Reentrant) (index : Nat) (record : PathRecord) : Prop :=
  ∃ h : index < pathRecordBufferSize,
    s.buffer.recs[index] = record ∨ ⟨record, .storeFn index⟩ ∈ s.calls ∨
      ⟨record, .storePath index⟩ ∈ s.calls ∧ s.buffer.recs[index].fn = record.fn

structure Places (s : Reentrant) (pending : List PathRecord) : Prop where
  length : pending.length = s.buffer.len
  taken : s.taken = s.written ++ pending
  holds : ∀ index record, pending[index]? = some record → s.Holds index record
  storing : ∀ call ∈ s.calls, ∀ index, call.pc.index? = some index →
    pending[index]? = some call.record

/-- Calls that wait for their turn on top of the one that fills or flushes the
buffer, and those below it, which have nothing to store. -/
structure Stacked (s : Reentrant) (last : Call) : Prop where
  calls : ∃ entering below, s.calls = entering ++ last :: below ∧
    (∀ call ∈ entering, call.pc = .incrementLen) ∧
    ∀ call ∈ below, call.pc.isStoring = false ∧ call.pc.isFlushing = false
  len : s.buffer.len = pathRecordBufferSize

inductive Inv (s : Reentrant) : Prop
  | filling (pending : List PathRecord) (places : s.Places pending)
      (room : s.buffer.len < pathRecordBufferSize)
      (calls : ∀ call ∈ s.calls, call.pc.isFlushing = false)
  | full (pending : List PathRecord) (places : s.Places pending) (last : Call)
      (stacked : s.Stacked last) (taken : last.pc ≠ .incrementLen)
      (unwritten : last.pc ≠ .resetLen)
  | flushed (last : Call) (stacked : s.Stacked last) (reset : last.pc = .resetLen)
      (taken : s.taken = s.written)

section Places

variable {s : Reentrant} {pending : List PathRecord} {record : PathRecord}
  {rest : List Call} {index : Nat}

theorem Pc.isStoring_of_index {pc : Pc} (h : pc.index? = some index) :
    pc.isStoring = true := by
  cases pc <;> first | rfl | contradiction

theorem Holds.mono {s' : Reentrant} (holds : s.Holds index record)
    (hbuffer : s'.buffer.recs = s.buffer.recs)
    (hcalls : ∀ call ∈ s.calls, call.pc.isStoring = true → call ∈ s'.calls) :
    s'.Holds index record := by
  obtain ⟨h, hcase⟩ := holds
  refine ⟨h, ?_⟩
  rw [hbuffer]
  rcases hcase with hstored | hfn | ⟨hpath, hstored⟩
  · exact .inl hstored
  · exact .inr (.inl (hcalls _ hfn rfl))
  · exact .inr (.inr ⟨hcalls _ hpath rfl, hstored⟩)

theorem Places.withCalls (places : s.Places pending) {calls : List Call}
    (h : ∀ call, call.pc.isStoring = true → (call ∈ calls ↔ call ∈ s.calls)) :
    ({ s with calls := calls } : Reentrant).Places pending where
  length := places.length
  taken := places.taken
  holds index record hrecord :=
    (places.holds index record hrecord).mono rfl fun call hmem hstoring =>
      (h call hstoring).mpr hmem
  storing call hmem index hindex :=
    places.storing call ((h call (Pc.isStoring_of_index hindex)).mp hmem) index hindex

theorem Places.incrementLen (places : s.Places pending)
    (hcalls : s.calls = ⟨record, .incrementLen⟩ :: rest)
    (room : s.buffer.len < pathRecordBufferSize) :
    ({ s with
      buffer := { s.buffer with len := s.buffer.len + 1 }
      calls := ⟨record, .storeFn s.buffer.len⟩ :: rest
      taken := s.taken ++ [record] } : Reentrant).Places (pending ++ [record]) where
  length := by simp [places.length]
  taken := by
    change s.taken ++ [record] = s.written ++ (pending ++ [record])
    rw [places.taken, List.append_assoc]
  holds index stored hstored := by
    by_cases hindex : index < pending.length
    · rw [List.getElem?_append_left hindex] at hstored
      refine (places.holds index stored hstored).mono rfl ?_
      intro call hmem hstoring
      rw [hcalls] at hmem
      refine List.mem_cons_of_mem _ (List.mem_of_ne_of_mem ?_ hmem)
      rintro rfl
      contradiction
    · have heq : index = s.buffer.len := by
        have hlt := (List.getElem?_eq_some_iff.mp hstored).1
        have := places.length
        simp only [List.length_append, List.length_singleton] at hlt
        omega
      subst heq
      rw [← places.length, List.getElem?_concat_length] at hstored
      cases hstored
      exact ⟨room, .inr (.inl (List.mem_cons_self ..))⟩
  storing call hmem index hindex := by
    rcases List.mem_cons.mp hmem with rfl | hmem
    · cases hindex
      rw [← places.length]
      exact List.getElem?_concat_length
    · have hold := places.storing call (hcalls ▸ List.mem_cons_of_mem _ hmem) index hindex
      have hlt := (List.getElem?_eq_some_iff.mp hold).1
      rw [List.getElem?_append_left hlt]
      exact hold

theorem Places.index_lt (places : s.Places pending)
    (hlen : s.buffer.len ≤ pathRecordBufferSize) {call : Call} (hmem : call ∈ s.calls)
    (hindex : call.pc.index? = some index) : index < pathRecordBufferSize := by
  have hlt := (List.getElem?_eq_some_iff.mp (places.storing call hmem index hindex)).1
  have := places.length
  omega

theorem getElem_withRecord (h : index < pathRecordBufferSize) (stored : PathRecord)
    (calls : List Call) :
    (s.withRecord index h stored calls).buffer.recs[index] = stored :=
  Vector.getElem_set_self h

theorem Places.withRecord (places : s.Places pending) {call call' : Call}
    (hcalls : s.calls = call :: rest) (hindex : call.pc.index? = some index)
    (h : index < pathRecordBufferSize) {stored : PathRecord}
    (hrecord : call'.record = call.record)
    (hindex' : ∀ other, call'.pc.index? = some other → other = index)
    (hself : (s.withRecord index h stored (call' :: rest)).Holds index call.record) :
    (s.withRecord index h stored (call' :: rest)).Places pending where
  length := places.length
  taken := places.taken
  holds other record hpending := by
    by_cases hother : other = index
    · subst hother
      have hmine := places.storing call (hcalls ▸ List.mem_cons_self ..) other hindex
      cases hpending.symm.trans hmine
      exact hself
    · obtain ⟨hlt, hcase⟩ := places.holds other record hpending
      have hkept : (s.withRecord index h stored (call' :: rest)).buffer.recs[other] =
          s.buffer.recs[other] := Vector.getElem_set_ne h hlt (Ne.symm hother)
      have hmem : ∀ c ∈ s.calls, c.pc.index? = some other → c ∈ call' :: rest := by
        intro c hc hc'
        rw [hcalls] at hc
        refine List.mem_cons_of_mem _ (List.mem_of_ne_of_mem ?_ hc)
        rintro rfl
        exact hother (Option.some.inj (hc'.symm.trans hindex))
      refine ⟨hlt, ?_⟩
      rw [hkept]
      rcases hcase with hstored | hfn | ⟨hpath, hstored⟩
      · exact .inl hstored
      · exact .inr (.inl (hmem _ hfn rfl))
      · exact .inr (.inr ⟨hmem _ hpath rfl, hstored⟩)
  storing c hmem other hother := by
    rcases List.mem_cons.mp hmem with rfl | hmem
    · rw [hindex' other hother, hrecord]
      exact places.storing call (hcalls ▸ List.mem_cons_self ..) index hindex
    · exact places.storing c (hcalls ▸ List.mem_cons_of_mem _ hmem) other hother

theorem Places.storeFn (places : s.Places pending)
    (hlen : s.buffer.len ≤ pathRecordBufferSize)
    (hcalls : s.calls = ⟨record, .storeFn index⟩ :: rest) :
    ∃ s', s.stepCall record rest (.storeFn index) = some s' ∧ s'.Places pending ∧
      s'.calls = ⟨record, .storePath index⟩ :: rest ∧
      s'.buffer.len = s.buffer.len := by
  have h := places.index_lt hlen (hcalls ▸ List.mem_cons_self ..) rfl
  refine ⟨_, dif_pos h, ?_, rfl, rfl⟩
  refine places.withRecord hcalls rfl h rfl (fun other hother => ?_) ?_
  · exact (Option.some.inj hother).symm
  · refine ⟨h, .inr (.inr ⟨List.mem_cons_self .., ?_⟩)⟩
    rw [getElem_withRecord]

theorem Places.storePath (places : s.Places pending)
    (hlen : s.buffer.len ≤ pathRecordBufferSize)
    (hcalls : s.calls = ⟨record, .storePath index⟩ :: rest) :
    ∃ s', s.stepCall record rest (.storePath index) = some s' ∧ s'.Places pending ∧
      s'.calls = ⟨record, .compare⟩ :: rest ∧ s'.buffer.len = s.buffer.len := by
  have hmem : ⟨record, .storePath index⟩ ∈ s.calls := hcalls ▸ List.mem_cons_self ..
  have h := places.index_lt hlen hmem rfl
  refine ⟨_, dif_pos h, ?_, rfl, rfl⟩
  refine places.withRecord hcalls rfl h rfl (fun other hother => ?_) ?_
  · contradiction
  · obtain ⟨_, hcase⟩ :=
      places.holds index record (places.storing _ hmem index rfl)
    refine ⟨h, ?_⟩
    rw [getElem_withRecord]
    rcases hcase with hstored | hfn | ⟨_, hstored⟩
    · rw [hstored]
      exact .inl rfl
    · rw [hcalls] at hfn
      refine .inr (.inl (List.mem_cons_of_mem _ (List.mem_of_ne_of_mem ?_ hfn)))
      exact fun heq => nomatch congrArg Call.pc heq
    · refine .inl ?_
      dsimp only
      rw [hstored]

/-- When no call has something to store, the buffer holds what is pending. -/
theorem Places.contents_eq (places : s.Places pending)
    (hcalls : ∀ call ∈ s.calls, call.pc.isStoring = false) :
    s.buffer.contents = pending := by
  apply List.ext_getElem?
  intro index
  by_cases hindex : index < s.buffer.len
  · have hlt : index < pending.length := by
      rw [places.length]
      exact hindex
    have hpending := List.getElem?_eq_getElem hlt
    obtain ⟨h, hcase⟩ := places.holds index pending[index] hpending
    have hstored : s.buffer.recs[index] = pending[index] := by
      rcases hcase with hstored | hfn | ⟨hpath, _⟩
      · exact hstored
      · exact nomatch hcalls _ hfn
      · exact nomatch hcalls _ hpath
    rw [hpending, PathRecords.contents, List.getElem?_take_of_lt hindex, ← hstored]
    simp
  · have hnone : pending[index]? = none := by
      rw [List.getElem?_eq_none_iff, places.length]
      omega
    rw [hnone, List.getElem?_eq_none_iff]
    exact Nat.le_trans (List.length_take_le _ _) (Nat.not_lt.mp hindex)

end Places

section Inv

variable {s s' : Reentrant} {pending : List PathRecord} {call last : Call}
  {rest : List Call}

/-- A call on top of a full buffer is the one that has filled it, or it waits. -/
theorem Stacked.top (stacked : s.Stacked last) (hcalls : s.calls = call :: rest) :
    call.pc = .incrementLen ∨ call = last ∧
      ∀ call ∈ rest, call.pc.isStoring = false ∧ call.pc.isFlushing = false := by
  obtain ⟨entering, below, heq, hentering, hbelow⟩ := stacked.calls
  cases entering with
  | nil =>
      rw [hcalls] at heq
      obtain ⟨rfl, rfl⟩ := List.cons.inj heq
      exact .inr ⟨rfl, hbelow⟩
  | cons first entering =>
      rw [hcalls] at heq
      obtain ⟨rfl, _⟩ := List.cons.inj heq
      exact .inl (hentering _ (List.mem_cons_self ..))

theorem Stacked.of_top (hcalls : s.calls = last :: rest)
    (hrest : ∀ call ∈ rest, call.pc.isStoring = false ∧ call.pc.isFlushing = false)
    (hlen : s.buffer.len = pathRecordBufferSize) : s.Stacked last :=
  ⟨⟨[], rest, hcalls, by simp, hrest⟩, hlen⟩

theorem Stacked.interrupt (stacked : s.Stacked last) (record : PathRecord) :
    ({ s with calls := ⟨record, .incrementLen⟩ :: s.calls } : Reentrant).Stacked
      last := by
  obtain ⟨entering, below, hcalls, hentering, hbelow⟩ := stacked.calls
  refine ⟨⟨⟨record, .incrementLen⟩ :: entering, below, ?_, ?_, hbelow⟩, stacked.len⟩
  · simp [hcalls]
  · intro call hmem
    rcases List.mem_cons.mp hmem with rfl | hmem
    · rfl
    · exact hentering call hmem

theorem Inv.interrupt (inv : s.Inv) (record : PathRecord) :
    ({ s with calls := ⟨record, .incrementLen⟩ :: s.calls } : Reentrant).Inv := by
  have hcalls : ∀ call : Call, call.pc.isStoring = true →
      (call ∈ ⟨record, .incrementLen⟩ :: s.calls ↔ call ∈ s.calls) := by
    intro call hstoring
    refine ⟨fun hmem => List.mem_of_ne_of_mem ?_ hmem, List.mem_cons_of_mem _⟩
    rintro rfl
    contradiction
  cases inv with
  | filling pending places room calls =>
      refine .filling pending (places.withCalls hcalls) room ?_
      intro call hmem
      rcases List.mem_cons.mp hmem with rfl | hmem
      · rfl
      · exact calls call hmem
  | full pending places last stacked taken unwritten =>
      exact .full pending (places.withCalls hcalls) last (stacked.interrupt record) taken
        unwritten
  | flushed last stacked reset taken =>
      exact .flushed last (stacked.interrupt record) reset taken

theorem Inv.stepCall_filling {record : PathRecord} {pc : Pc}
    (places : s.Places pending) (room : s.buffer.len < pathRecordBufferSize)
    (calls : ∀ call ∈ s.calls, call.pc.isFlushing = false)
    (hcalls : s.calls = ⟨record, pc⟩ :: rest) (spaced : s.Spaced .step) :
    ∃ s', s.stepCall record rest pc = some s' ∧ s'.Inv := by
  have hrest : ∀ call ∈ rest, call.pc.isFlushing = false := fun call hmem =>
    calls call (hcalls ▸ List.mem_cons_of_mem _ hmem)
  cases pc with
  | incrementLen =>
      simp only [Spaced, SpacedCalls, hcalls] at spaced
      refine ⟨_, rfl, ?_⟩
      have places' := places.incrementLen hcalls room
      by_cases hlast : s.buffer.len + 1 < pathRecordBufferSize
      · refine .filling _ places' hlast ?_
        intro call hmem
        rcases List.mem_cons.mp hmem with rfl | hmem
        · rfl
        · exact hrest call hmem
      · refine .full _ places' _ (.of_top rfl ?_ ?_) nofun nofun
        · intro call hmem
          refine ⟨?_, hrest call hmem⟩
          cases hstoring : call.pc.isStoring with
          | false => rfl
          | true => exact absurd (spaced.2 ⟨call, hmem, hstoring⟩) hlast
        · change s.buffer.len + 1 = pathRecordBufferSize
          omega
  | storeFn index =>
      obtain ⟨s', hstep, places', hcalls', hlen⟩ := places.storeFn (Nat.le_of_lt room) hcalls
      refine ⟨s', hstep, .filling _ places' (hlen ▸ room) ?_⟩
      intro call hmem
      rw [hcalls'] at hmem
      rcases List.mem_cons.mp hmem with rfl | hmem
      · rfl
      · exact hrest call hmem
  | storePath index =>
      obtain ⟨s', hstep, places', hcalls', hlen⟩ :=
        places.storePath (Nat.le_of_lt room) hcalls
      refine ⟨s', hstep, .filling _ places' (hlen ▸ room) ?_⟩
      intro call hmem
      rw [hcalls'] at hmem
      rcases List.mem_cons.mp hmem with rfl | hmem
      · rfl
      · exact hrest call hmem
  | compare =>
      refine ⟨_, if_neg (Nat.ne_of_gt room), .filling pending ?_ room hrest⟩
      apply places.withCalls
      intro call hstoring
      rw [hcalls]
      refine ⟨List.mem_cons_of_mem _, fun hmem => List.mem_of_ne_of_mem ?_ hmem⟩
      rintro rfl
      contradiction
  | write => cases calls ⟨record, .write⟩ (hcalls ▸ List.mem_cons_self ..)
  | resetLen => cases calls ⟨record, .resetLen⟩ (hcalls ▸ List.mem_cons_self ..)

theorem Inv.stepCall_full {record : PathRecord} {pc : Pc}
    (places : s.Places pending) (hlen : s.buffer.len = pathRecordBufferSize)
    (hcalls : s.calls = ⟨record, pc⟩ :: rest)
    (hrest : ∀ call ∈ rest, call.pc.isStoring = false ∧ call.pc.isFlushing = false)
    (taken : pc ≠ .incrementLen) (unwritten : pc ≠ .resetLen) :
    ∃ s', s.stepCall record rest pc = some s' ∧ s'.Inv := by
  cases pc with
  | incrementLen => contradiction
  | storeFn index =>
      obtain ⟨s', hstep, places', hcalls', hlen'⟩ :=
        places.storeFn (Nat.le_of_eq hlen) hcalls
      exact ⟨s', hstep, .full _ places' _
        (.of_top hcalls' hrest (hlen'.trans hlen)) nofun nofun⟩
  | storePath index =>
      obtain ⟨s', hstep, places', hcalls', hlen'⟩ :=
        places.storePath (Nat.le_of_eq hlen) hcalls
      exact ⟨s', hstep, .full _ places' _
        (.of_top hcalls' hrest (hlen'.trans hlen)) nofun nofun⟩
  | compare =>
      refine ⟨_, if_pos hlen.symm, .full pending ?_ _ (.of_top rfl hrest hlen) nofun
        nofun⟩
      apply places.withCalls
      intro call hstoring
      rw [hcalls]
      constructor
      · intro hmem
        refine List.mem_cons_of_mem _ (List.mem_of_ne_of_mem ?_ hmem)
        rintro rfl
        contradiction
      · intro hmem
        refine List.mem_cons_of_mem _ (List.mem_of_ne_of_mem ?_ hmem)
        rintro rfl
        contradiction
  | write =>
      have hcontents : s.buffer.contents = pending := by
        apply places.contents_eq
        intro call hmem
        rw [hcalls] at hmem
        rcases List.mem_cons.mp hmem with rfl | hmem
        · rfl
        · exact (hrest call hmem).1
      refine ⟨_, if_pos (Nat.le_of_eq hlen), .flushed _ (.of_top rfl hrest hlen) rfl ?_⟩
      change s.taken = (s.output ++ [s.buffer.contents]).flatten
      rw [places.taken, hcontents, List.flatten_append, List.flatten_singleton]
      rfl
  | resetLen => contradiction

theorem Inv.stepCall_flushed {record : PathRecord}
    (hrest : ∀ call ∈ rest, call.pc.isStoring = false ∧ call.pc.isFlushing = false)
    (taken : s.taken = s.written) :
    ∃ s', s.stepCall record rest .resetLen = some s' ∧ s'.Inv := by
  refine ⟨_, rfl, .filling [] ?_ (Nat.zero_lt_succ _) fun call hmem =>
    (hrest call hmem).2⟩
  refine ⟨rfl, taken.trans (List.append_nil _).symm, by simp, ?_⟩
  intro call hmem index hindex
  have := (hrest call hmem).1
  rw [Pc.isStoring_of_index hindex] at this
  contradiction

/-- A spaced step of the innermost call has a result, and keeps the invariant. -/
theorem Inv.stepCall (inv : s.Inv) (hcalls : s.calls = call :: rest)
    (spaced : s.Spaced .step) :
    ∃ s', s.stepCall call.record rest call.pc = some s' ∧ s'.Inv := by
  have hwaiting : s.buffer.len = pathRecordBufferSize → call.pc ≠ .incrementLen := by
    intro hlen hpc
    obtain ⟨record, pc⟩ := call
    cases hpc
    simp only [Spaced, SpacedCalls, hcalls] at spaced
    exact Nat.lt_irrefl _ (hlen ▸ spaced.1)
  cases inv with
  | filling pending places room calls =>
      exact stepCall_filling places room calls hcalls spaced
  | full pending places last stacked taken unwritten =>
      rcases stacked.top hcalls with hpc | ⟨rfl, hrest⟩
      · exact absurd hpc (hwaiting stacked.len)
      · exact stepCall_full places stacked.len hcalls hrest taken unwritten
  | flushed last stacked reset taken =>
      rcases stacked.top hcalls with hpc | ⟨rfl, hrest⟩
      · exact absurd hpc (hwaiting stacked.len)
      · rw [reset]
        exact stepCall_flushed hrest taken

theorem Inv.step (inv : s.Inv) {e : Event} (spaced : s.Spaced e)
    (h : s.step e = some s') : s'.Inv := by
  cases e with
  | call record =>
      cases h
      exact inv.interrupt record
  | step =>
      cases hcalls : s.calls with
      | nil =>
          simp only [Reentrant.step, hcalls] at h
          contradiction
      | cons call rest =>
          obtain ⟨next, hnext, inv'⟩ := inv.stepCall hcalls spaced
          simp only [Reentrant.step, hcalls, hnext] at h
          cases h
          exact inv'

theorem initial_inv : initial.Inv :=
  .filling [] ⟨rfl, rfl, by simp, by simp [initial]⟩ (Nat.zero_lt_succ _)
    (by simp [initial])

theorem Inv.index_lt (inv : s.Inv) (hmem : call ∈ s.calls) {index : Nat}
    (hindex : call.pc.index? = some index) : index < pathRecordBufferSize := by
  cases inv with
  | filling pending places room calls =>
      exact places.index_lt (Nat.le_of_lt room) hmem hindex
  | full pending places last stacked taken unwritten =>
      exact places.index_lt (Nat.le_of_eq stacked.len) hmem hindex
  | flushed last stacked reset taken =>
      obtain ⟨entering, below, hcalls, hentering, hbelow⟩ := stacked.calls
      have hstoring := Pc.isStoring_of_index hindex
      rw [hcalls] at hmem
      rcases List.mem_append.mp hmem with hmem | hmem
      · rw [hentering call hmem] at hstoring
        contradiction
      · rcases List.mem_cons.mp hmem with rfl | hmem
        · rw [reset] at hstoring
          contradiction
        · rw [(hbelow call hmem).1] at hstoring
          contradiction

theorem Inv.contents_of_write (inv : s.Inv) (hcalls : s.calls = call :: rest)
    (hwrite : call.pc = .write) :
    s.buffer.len = pathRecordBufferSize ∧ s.taken = s.written ++ s.buffer.contents := by
  cases inv with
  | filling pending places room calls =>
      have := calls call (hcalls ▸ List.mem_cons_self ..)
      rw [hwrite] at this
      contradiction
  | full pending places last stacked taken unwritten =>
      rcases stacked.top hcalls with hpc | ⟨rfl, hrest⟩
      · rw [hwrite] at hpc
        contradiction
      · refine ⟨stacked.len, ?_⟩
        rw [places.taken, places.contents_eq]
        intro other hmem
        rw [hcalls] at hmem
        rcases List.mem_cons.mp hmem with rfl | hmem
        · rw [hwrite]
          rfl
        · exact (hrest other hmem).1
  | flushed last stacked reset taken =>
      rcases stacked.top hcalls with hpc | ⟨rfl, _⟩
      · rw [hwrite] at hpc
        contradiction
      · rw [hwrite] at reset
        contradiction

theorem Inv.contents_of_idle (inv : s.Inv) (hcalls : s.calls = []) :
    s.taken = s.written ++ s.buffer.contents := by
  have hstacked : ∀ {last : Call}, ¬ s.Stacked last := by
    intro last stacked
    obtain ⟨entering, below, heq, _⟩ := stacked.calls
    rw [hcalls] at heq
    exact absurd heq.symm (by simp)
  cases inv with
  | filling pending places room calls =>
      rw [places.taken, places.contents_eq]
      simp [hcalls]
  | full pending places last stacked => exact absurd stacked hstacked
  | flushed last stacked => exact absurd stacked hstacked

end Inv

/-! Every call takes a place, unless it has not got that far. -/

def called (events : List Event) : List PathRecord :=
  events.filterMap fun
    | .call record => some record
    | .step => none

def waiting (calls : List Call) : List PathRecord :=
  (calls.filter fun call => call.pc = .incrementLen).map Call.record

theorem storeRecord_eq_some {s s' : Reentrant} {index : Nat}
    {change : PathRecord → PathRecord} {calls : List Call}
    (h : s.storeRecord index change calls = some s') :
    s'.calls = calls ∧ s'.taken = s.taken := by
  unfold storeRecord at h
  split at h
  · cases h
    exact ⟨rfl, rfl⟩
  · contradiction

theorem called_of_step {s s' : Reentrant} {e : Event} (h : s.step e = some s') :
    (s.taken ++ waiting s.calls ++ called [e]).Perm (s'.taken ++ waiting s'.calls) := by
  cases e with
  | call record =>
      cases h
      exact (List.perm_append_singleton _ _).trans List.perm_middle.symm
  | step =>
      have hcalled : called [Event.step] = [] := rfl
      rw [hcalled, List.append_nil]
      cases hcalls : s.calls with
      | nil =>
          simp only [step, hcalls] at h
          contradiction
      | cons call rest =>
          obtain ⟨record, pc⟩ := call
          simp only [step, hcalls] at h
          cases pc with
          | incrementLen =>
              cases h
              exact .of_eq (List.append_cons s.taken record (waiting rest))
          | storeFn index =>
              dsimp only [stepCall] at h
              obtain ⟨hcalls', htaken⟩ := storeRecord_eq_some h
              rw [hcalls', htaken]
              exact .refl _
          | storePath index =>
              dsimp only [stepCall] at h
              obtain ⟨hcalls', htaken⟩ := storeRecord_eq_some h
              rw [hcalls', htaken]
              exact .refl _
          | compare =>
              dsimp only [stepCall] at h
              split at h
              · cases h
                exact .refl _
              · cases h
                exact .refl _
          | write =>
              obtain ⟨_, h⟩ := Option.ite_none_right_eq_some.mp h
              cases h
              exact .refl _
          | resetLen =>
              cases h
              exact .refl _

theorem called_of_run {s : Reentrant} {events : List Event}
    (hrun : run step initial events = some s) :
    (called events).Perm (s.taken ++ waiting s.calls) := by
  apply run_invariant (P := fun events s =>
    (called events).Perm (s.taken ++ waiting s.calls)) hrun
  · exact .refl _
  · intro before middle e next _ hperm hstep
    have happend : called (before ++ [e]) = called before ++ called [e] :=
      List.filterMap_append
    rw [happend]
    exact (hperm.append_right _).trans (called_of_step hstep)

end Reentrant

/-- In every run of nested calls in which none takes a place of a full buffer, and none
takes the last place while an interrupted call is storing: all stores are inside the
array, a flush writes complete records only, and when no call is in progress each
record has been written once or is in the buffer. -/
theorem reentrant_logging_is_safe {events : List Reentrant.Event} {s : Reentrant}
    (hrun : run Reentrant.step .initial events = some s)
    (spaced : Along Reentrant.step Reentrant.Spaced .initial events) :
    (∀ call ∈ s.calls, ∀ index, call.pc.index? = some index →
        index < pathRecordBufferSize) ∧
      (∀ call rest, s.calls = call :: rest → s.Spaced .step →
        ∃ s', s.step .step = some s') ∧
      (∀ call rest, s.calls = call :: rest → call.pc = .write →
        s.buffer.len = pathRecordBufferSize ∧
          s.taken = s.written ++ s.buffer.contents) ∧
      (s.calls = [] → s.taken = s.written ++ s.buffer.contents ∧
        (Reentrant.called events).Perm (s.written ++ s.buffer.contents)) := by
  have inv : s.Inv := by
    apply spaced.invariant (P := fun _ s => s.Inv) hrun Reentrant.initial_inv
    intro before middle e next _ inv hspaced hstep
    exact inv.step hspaced hstep
  refine ⟨fun call hmem index hindex => inv.index_lt hmem hindex, ?_, ?_, ?_⟩
  · intro call rest hcalls hspaced
    obtain ⟨s', hstep, _⟩ := inv.stepCall hcalls hspaced
    exact ⟨s', by simp only [Reentrant.step, hcalls, hstep]⟩
  · intro call rest hcalls hwrite
    exact inv.contents_of_write hcalls hwrite
  · intro hcalls
    have htaken := inv.contents_of_idle hcalls
    have hperm := Reentrant.called_of_run hrun
    rw [hcalls, htaken] at hperm
    exact ⟨htaken, by simpa [Reentrant.waiting] using hperm⟩

def interruptedStore : List Reentrant.Event :=
  [ .call ⟨10, 1⟩, .step, .step, .call ⟨10, 2⟩, .step, .step, .step, .step, .step,
    .step ]

theorem reentrant_logging_is_safe_interruptedStore :
    ∃ s, run Reentrant.step .initial interruptedStore = some s ∧ s.calls = [] ∧
      [⟨10, 1⟩, ⟨10, 2⟩].Perm (s.written ++ s.buffer.contents) := by
  have hcalls : (run Reentrant.step .initial interruptedStore).map Reentrant.calls =
      some [] := by decide +kernel
  obtain ⟨s, hrun, hcalls⟩ := Option.map_eq_some_iff.mp hcalls
  have hsafe := reentrant_logging_is_safe hrun (by decide +kernel)
  exact ⟨s, hrun, hcalls, (hsafe.2.2.2 hcalls).2⟩

def wholeCall : List Reentrant.Event :=
  [.call ⟨10, 0⟩, .step, .step, .step, .step]

def interruptedAtLastPlace : List Reentrant.Event :=
  (List.replicate 31 wholeCall).flatten ++ [.call ⟨10, 1⟩, .step, .call ⟨10, 2⟩, .step]

/-- A call that has taken the last place but one is interrupted by one that fills the
buffer and flushes it. -/
def interruptedByFlush : List Reentrant.Event :=
  (List.replicate 30 wholeCall).flatten ++
    [ .call ⟨10, 1⟩, .step, .call ⟨10, 2⟩, .step, .step, .step, .step, .step, .step,
      .step, .step, .step ]

/-- The interrupting call stores past the array; an interrupted record is written
before it is stored, and then lost. -/
theorem reentrant_logging_fails :
    (∃ s, run Reentrant.step .initial interruptedAtLastPlace = some s ∧
      (∃ call ∈ s.calls, call.pc = .storeFn pathRecordBufferSize) ∧
      s.step .step = none) ∧
    ∃ s, run Reentrant.step .initial interruptedByFlush = some s ∧ s.calls = [] ∧
      ⟨10, 1⟩ ∈ Reentrant.called interruptedByFlush ∧
      ⟨10, 1⟩ ∉ s.written ++ s.buffer.contents := by
  constructor
  · have hlast : (run Reentrant.step .initial interruptedAtLastPlace).map (fun s =>
        (s.calls.map Call.pc, (s.step .step).isNone)) =
          some ([.storeFn 32, .storeFn 31], true) := by decide +kernel
    obtain ⟨s, hrun, hlast⟩ := Option.map_eq_some_iff.mp hlast
    obtain ⟨hcalls, hnone⟩ := Prod.mk.inj hlast
    obtain ⟨call, hmem, hpc⟩ : ∃ call ∈ s.calls, call.pc = .storeFn 32 := by
      rw [← List.mem_map, hcalls]
      decide
    exact ⟨s, hrun, ⟨call, hmem, hpc⟩, Option.isNone_iff_eq_none.mp hnone⟩
  · have hlost : (run Reentrant.step .initial interruptedByFlush).map (fun s =>
        (s.calls, decide (⟨10, 1⟩ ∈ s.written ++ s.buffer.contents))) =
          some ([], false) := by decide +kernel
    obtain ⟨s, hrun, hlost⟩ := Option.map_eq_some_iff.mp hlost
    obtain ⟨hcalls, hnot⟩ := Prod.mk.inj hlost
    exact ⟨s, hrun, hcalls, by decide +kernel, of_decide_eq_false hnot⟩

end RrWorkbench.PathRuntime
