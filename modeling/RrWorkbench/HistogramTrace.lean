import Mathlib.Algebra.Order.BigOperators.Group.List
import Mathlib.Algebra.Order.Group.Nat
import Mathlib.Data.Int.Bitwise
import Mathlib.Data.Rat.Defs
import RrWorkbench.Data.Counter
import RrWorkbench.Data.LineInput

namespace RrWorkbench.HistogramTrace

open RrWorkbench.Data

/-! `histogram-trace`: counts the events of a trace by one of six keys and prints the
counts. -/

abbrev Text : Type := List Char

abbrev Histogram : Type := Counter Int

inductive Exn
  | assertionError
  | keyError (key : Int)
  | nameError
  | typeError
  | zeroDivisionError
  deriving DecidableEq, Repr

/-! Scanning the lines of a trace. -/

inductive Field
  | globalTime | threadTime | tid | reason | entryExit | hwInts | pageFaults | rbc | insns
  | eax | ebx | ecx | edx | esi | edi | ebp | origEax
  deriving DecidableEq, Repr

def traceFields : List Field :=
  [.globalTime, .threadTime, .tid, .reason, .entryExit, .hwInts, .pageFaults, .rbc,
    .insns, .eax, .ebx, .ecx, .edx, .esi, .edi, .ebp, .origEax]

def isSpace (c : Char) : Bool := decide (c.toNat ∈ [9, 10, 11, 12, 13, 32])

def scanDigits (text : Text) : Option (Nat × Text) :=
  match text.takeWhile Char.isDigit with
  | [] => none
  | digits =>
      some (digits.foldl (fun value c => 10 * value + (c.toNat - '0'.toNat)) 0,
        text.dropWhile Char.isDigit)

/-- `\s+[\-]?\d+`.  The three classes are disjoint, so the expression matches in one
way only and there is nothing to backtrack to. -/
def scanInt : Text → Option (Int × Text)
  | [] => none
  | c :: text =>
      if isSpace c then
        match text.dropWhile isSpace with
        | '-' :: rest => (scanDigits rest).map fun (value, rest) => (-(value : Int), rest)
        | rest => (scanDigits rest).map fun (value, rest) => ((value : Int), rest)
      else none

/-- The groups of a match of `make_int_scanner(*names)` at the start of a line. -/
def makeIntScanner : List Field → Text → Option (List (Field × Int))
  | [], _ => some []
  | name :: names, text =>
      (scanInt text).bind fun (value, rest) =>
        (makeIntScanner names rest).map fun groups => (name, value) :: groups

abbrev Event : Type := Field → Int

def Event.ofGroups (groups : List (Field × Int)) : Event :=
  fun field => (groups.lookup field).getD (-1)

def eventOfLine (line : Text) : Option Event :=
  ((makeIntScanner traceFields line).or (makeIntScanner (traceFields.take 4) line)).map
    Event.ofGroups

def iterevents (inf : Text) : List Event :=
  (lines (· == '\n') inf).filterMap eventOfLine

/-! Accumulators. -/

def sigSegvRdtsc : Int := -1022
def usrSched : Int := -1020
def flushEvent : Int := -1018
def sysSocketcall : Int := 102
def sysFutex : Int := 240
def sysFcntl : Int := 55
def sysFcntl64 : Int := 221
def futexPrivateFlag : Int := 128
def futexClockRealtime : Int := 256
def futexCmdMask : Int := Int.lnot (Int.lor futexPrivateFlag futexClockRealtime)

def isSyscallEntry (ev : Event) : Bool :=
  ev .entryExit == 0 &&
    (decide (0 ≤ ev .reason) || ev .reason == usrSched || ev .reason == sigSegvRdtsc)

def accumSelected (key : Event → Option Int) (inf : Text) (hist : Histogram) : Histogram :=
  (iterevents inf).foldl
    (fun hist ev =>
      match key ev with
      | some item => hist.incr item
      | none => hist) hist

def syscallKey (ev : Event) : Option Int :=
  if isSyscallEntry ev then some (ev .reason) else none

def insnKey (ev : Event) : Option Int :=
  if ev .insns ≤ 0 ∨ ev .rbc ≤ 0 then none else some (ev .insns / ev .rbc)

def socketcallKey (ev : Event) : Option Int :=
  if isSyscallEntry ev ∧ ev .reason = sysSocketcall then some (ev .ebx) else none

def futexKey (ev : Event) : Option Int :=
  if isSyscallEntry ev ∧ ev .reason = sysFutex then some (Int.land (ev .ecx) futexCmdMask)
  else none

def fcntlKey (ev : Event) : Option Int :=
  if isSyscallEntry ev ∧ (ev .reason = sysFcntl ∨ ev .reason = sysFcntl64) then
    some (ev .ecx)
  else none

abbrev Accumulator : Type := Text → Histogram → Except Exn Histogram

def accumSyscallHistogram : Accumulator :=
  fun inf hist => .ok (accumSelected syscallKey inf hist)

def accumInsnHistogram : Accumulator :=
  fun inf hist => .ok (accumSelected insnKey inf hist)

def accumSocketcallHistogram : Accumulator :=
  fun inf hist => .ok (accumSelected socketcallKey inf hist)

def accumFutexHistogram : Accumulator :=
  fun inf hist => .ok (accumSelected futexKey inf hist)

def accumFcntlHistogram : Accumulator :=
  fun inf hist => .ok (accumSelected fcntlKey inf hist)

def accumFlushEvent (state : Bool × Histogram) (ev : Event) :
    Except Exn (Bool × Histogram) :=
  if ev .reason = flushEvent then
    if state.1 then .error .assertionError else .ok (true, state.2)
  else if state.1 then .ok (false, state.2.incr (ev .reason))
  else .ok state

def accumFlushHistogram : Accumulator :=
  fun inf hist => ((iterevents inf).foldlM accumFlushEvent (false, hist)).map Prod.snd

/-! Stringifiers. -/

abbrev Stringifier : Type := Int → Except Exn String

/-- The table that `read_syscalls` makes of `asm/unistd_32.h`. -/
abbrev SyscallTable : Type := Int → Option String

/-- `^#define __NR_([^ ]+) (\d+)` at the start of a line. -/
def scanSyscall (line : Text) : Option (Int × String) :=
  let define := "#define __NR_".toList
  if define.isPrefixOf line then
    let rest := line.drop define.length
    match rest.takeWhile (· != ' '), rest.dropWhile (· != ' ') with
    | [], _ => none
    | name, _ :: rest => (scanDigits rest).map fun (number, _) => (number, String.ofList name)
    | _, [] => none
  else none

def readSyscalls (header : Text) : SyscallTable :=
  (lines (· == '\n') header).foldl
    (fun table line =>
      match scanSyscall line with
      | some (number, name) => fun no => if no = number then some name else table no
      | none => table)
    fun _ => none

def stringifySyscall (table : SyscallTable) : Stringifier :=
  fun no => .ok
    (if no = usrSched then "USR_SCHED"
    else if no = sigSegvRdtsc then "SIG_SEGV_RDTSC"
    else if no = 442 then "rrcall_init_buf"
    else if no = 443 then "rrcall_monkeypatch_vdso"
    else (table no).getD "???")

def lookupName (names : List (Int × String)) : Stringifier :=
  fun key => ((names.lookup key).map Except.ok).getD (.error (.keyError key))

def futexNames : List (Int × String) :=
  [(0, "FUTEX_WAIT"), (1, "FUTEX_WAKE"), (2, "FUTEX_FD"), (3, "FUTEX_REQUEUE"),
    (4, "FUTEX_CMP_REQUEUE"), (5, "FUTEX_WAKE_OP"), (6, "FUTEX_LOCK_PI"),
    (7, "FUTEX_UNLOCK_PI"), (8, "FUTEX_TRYLOCK_PI"), (9, "FUTEX_WAIT_BITSET"),
    (10, "FUTEX_WAKE_BITSET"), (11, "FUTEX_WAIT_REQUEUE_PI"),
    (12, "FUTEX_CMP_REQUEUE_PI")]

def stringifyFutex : Stringifier :=
  fun op =>
    let priv := if Int.land op futexPrivateFlag ≠ 0 then " (private)" else ""
    let rt := if Int.land op futexClockRealtime ≠ 0 then " (rt)" else ""
    (lookupName futexNames (Int.land op futexCmdMask)).map (· ++ priv ++ rt)

def socketcallNames : List (Int × String) :=
  [(1, "SYS_SOCKET"), (2, "SYS_BIND"), (3, "SYS_CONNECT"), (4, "SYS_LISTEN"),
    (5, "SYS_ACCEPT"), (6, "SYS_GETSOCKNAME"), (7, "SYS_GETPEERNAME"),
    (8, "SYS_SOCKETPAIR"), (9, "SYS_SEND"), (10, "SYS_RECV"), (11, "SYS_SENDTO"),
    (12, "SYS_RECVFROM"), (13, "SYS_SHUTDOWN"), (14, "SYS_SETSOCKOPT"),
    (15, "SYS_GETSOCKOPT"), (16, "SYS_SENDMSG"), (17, "SYS_RECVMSG"),
    (18, "SYS_ACCEPT4"), (19, "SYS_RECVMMSG"), (20, "SYS_SENDMMSG")]

def stringifySocketcall : Stringifier := lookupName socketcallNames

def fcntlNames : List (Int × String) :=
  [(4, "F_SETFL"), (5, "F_GETLK"), (6, "F_SETLK"), (7, "F_SETLKW"), (10, "F_SETSIG"),
    (12, "F_GETLK64"), (13, "F_SETLK64"), (14, "F_SETLKW64"), (15, "F_SETOWN_EX")]

def stringifyFcntl : Stringifier :=
  fun which => .ok ((fcntlNames.lookup which).getD "???")

/-! Printers. -/

/-- The order in which the interpreter iterates over the keys of a dictionary. -/
abbrev IterationOrder : Type :=
  { order : Histogram → List Int // ∀ hist, (order hist).Perm hist.keys }

structure Row where
  count : Nat
  percent : ℚ
  name : String
  key : Int
  deriving DecidableEq

structure Report where
  label : String
  rows : List Row
  total : Nat
  deriving DecidableEq

def printRow (hist : Histogram) (total : Nat) (stringify : Option Stringifier) (k : Int) :
    Except Exn Row :=
  if total = 0 then .error .zeroDivisionError
  else
    match stringify with
    | none => .error .typeError
    | some stringify =>
        (stringify k).map fun name =>
          { count := hist.get k, percent := 100 * hist.get k / total, name := name, key := k }

def printHistogram (order : IterationOrder) (label : String) (hist : Histogram)
    (stringify : Option Stringifier) : Except Exn Report :=
  let total := ((order.1 hist).map hist.get).sum
  ((hist.ranked (order.1 hist)).mapM (printRow hist total stringify)).map fun rows =>
    { label := label, rows := rows, total := total }

def lookupAccumStringify (table : SyscallTable) (which : String) :
    Except Exn (Accumulator × Option Stringifier) :=
  if which = "syscall" then .ok (accumSyscallHistogram, some (stringifySyscall table))
  else if which = "insns/rcb" then .ok (accumInsnHistogram, none)
  else if which = "flush" then .ok (accumFlushHistogram, some (stringifySyscall table))
  else if which = "socketcall" then .ok (accumSocketcallHistogram, some stringifySocketcall)
  else if which = "futex" then .ok (accumFutexHistogram, some stringifyFutex)
  else if which = "fcntl" then .ok (accumFcntlHistogram, some stringifyFcntl)
  -- usage(argv), but the function has no variable of that name
  else .error .nameError

def main (table : SyscallTable) (order : IterationOrder) (which : String)
    (files : List Text) : Except Exn Report :=
  match lookupAccumStringify table which with
  | .error exn => .error exn
  | .ok (accumHist, stringify) =>
      match files.foldlM (fun hist inf => accumHist inf hist) ∅ with
      | .error exn => .error exn
      | .ok hist => printHistogram order which hist stringify

/-! What the categories count: the keys of the selected events, in the order of the
trace.  A flush is selected by the event that follows it. -/

inductive Category
  | syscall | insnsPerRcb | flush | socketcall | futex | fcntl
  deriving DecidableEq, Repr

namespace Category

def name : Category → String
  | .syscall => "syscall"
  | .insnsPerRcb => "insns/rcb"
  | .flush => "flush"
  | .socketcall => "socketcall"
  | .futex => "futex"
  | .fcntl => "fcntl"

def followers (events : List Event) : List Int :=
  (events.zip events.tail).filterMap fun (ev, next) =>
    if ev .reason = flushEvent then some (next .reason) else none

def selectedKeys : Category → List Event → List Int
  | .syscall => List.filterMap syscallKey
  | .insnsPerRcb => List.filterMap insnKey
  | .flush => followers
  | .socketcall => List.filterMap socketcallKey
  | .futex => List.filterMap futexKey
  | .fcntl => List.filterMap fcntlKey

def fileKeys (category : Category) (files : List Text) : List Int :=
  files.flatMap fun inf => category.selectedKeys (iterevents inf)

def FlushesSpaced (events : List Event) : Prop :=
  events.IsChain fun ev next => ¬ (ev .reason = flushEvent ∧ next .reason = flushEvent)

instance : DecidablePred FlushesSpaced :=
  fun events => inferInstanceAs (Decidable (List.IsChain _ events))

end Category

/-- A report of the given keys: a row for each of them with the number of its
occurrences, the frequent ones first, and the sum of the rows. -/
structure Report.Reports (report : Report) (label : String) (keys : List Int) : Prop where
  label : report.label = label
  nodup : (report.rows.map Row.key).Nodup
  mem : ∀ key, key ∈ report.rows.map Row.key ↔ key ∈ keys
  sorted : report.rows.Pairwise fun row next => next.count ≤ row.count
  counts : ∀ row ∈ report.rows, row.count = keys.count row.key
  total : report.total = (report.rows.map Row.count).sum

/-! Accumulating. -/

theorem accumSelected_eq (key : Event → Option Int) (inf : Text) (hist : Histogram) :
    accumSelected key inf hist =
      ((iterevents inf).filterMap key).foldl Counter.incr hist := by
  rw [accumSelected, List.foldl_filterMap]
  congr 1
  funext hist ev
  cases key ev <;> rfl

namespace Category

theorem followers_cons_cons (ev next : Event) (events : List Event) :
    followers (ev :: next :: events) =
      (if ev .reason = flushEvent then [next .reason] else []) ++
        followers (next :: events) := by
  by_cases hflush : ev .reason = flushEvent <;> simp [followers, hflush]

theorem accumFlushEvent_eq {last ev : Event} (hist : Histogram)
    (spaced : ¬ (last .reason = flushEvent ∧ ev .reason = flushEvent)) :
    accumFlushEvent (decide (last .reason = flushEvent), hist) ev =
      .ok (decide (ev .reason = flushEvent),
        (if last .reason = flushEvent then [ev .reason] else []).foldl
          Counter.incr hist) := by
  by_cases hlast : last .reason = flushEvent <;>
    by_cases hev : ev .reason = flushEvent <;>
    simp_all [accumFlushEvent]

theorem foldlM_accumFlushEvent (events : List Event) (last : Event) (hist : Histogram)
    (spaced : FlushesSpaced (last :: events)) :
    ∃ flushed, events.foldlM accumFlushEvent (decide (last .reason = flushEvent), hist) =
      .ok (flushed, (followers (last :: events)).foldl Counter.incr hist) := by
  induction events generalizing last hist with
  | nil => exact ⟨_, rfl⟩
  | cons ev events ih =>
      obtain ⟨hspaced, hrest⟩ := List.isChain_cons_cons.mp spaced
      rw [List.foldlM_cons, accumFlushEvent_eq hist hspaced, followers_cons_cons,
        List.foldl_append]
      exact ih ev _ hrest

theorem accumFlushHistogram_eq {inf : Text} (hist : Histogram)
    (spaced : FlushesSpaced (iterevents inf)) :
    accumFlushHistogram inf hist =
      .ok ((followers (iterevents inf)).foldl Counter.incr hist) := by
  -- the loop starts as if after an event that is no flush
  have hstart : followers ((fun _ => 0) :: iterevents inf) = followers (iterevents inf) ∧
      FlushesSpaced ((fun _ => 0) :: iterevents inf) := by
    cases hevents : iterevents inf with
    | nil => exact ⟨rfl, .singleton _⟩
    | cons ev events =>
        refine ⟨followers_cons_cons _ _ _, List.isChain_cons_cons.mpr ⟨?_, hevents ▸ spaced⟩⟩
        exact fun hflush => absurd hflush.1 (by decide)
  obtain ⟨flushed, hloop⟩ :=
    foldlM_accumFlushEvent (iterevents inf) (fun _ => 0) hist hstart.2
  rw [hstart.1] at hloop
  simp only [accumFlushHistogram]
  rw [show false = decide ((0 : Int) = flushEvent) from rfl, hloop]
  rfl

def accumulator : Category → Accumulator
  | .syscall => accumSyscallHistogram
  | .insnsPerRcb => accumInsnHistogram
  | .flush => accumFlushHistogram
  | .socketcall => accumSocketcallHistogram
  | .futex => accumFutexHistogram
  | .fcntl => accumFcntlHistogram

def stringifier (table : SyscallTable) : Category → Option Stringifier
  | .syscall | .flush => some (stringifySyscall table)
  | .insnsPerRcb => none
  | .socketcall => some stringifySocketcall
  | .futex => some stringifyFutex
  | .fcntl => some stringifyFcntl

theorem lookupAccumStringify_name (table : SyscallTable) (category : Category) :
    lookupAccumStringify table category.name =
      .ok (category.accumulator, category.stringifier table) := by
  cases category <;> rfl

theorem accumulator_eq {category : Category} {inf : Text} (hist : Histogram)
    (spaced : category = .flush → FlushesSpaced (iterevents inf)) :
    category.accumulator inf hist =
      .ok ((category.selectedKeys (iterevents inf)).foldl Counter.incr hist) := by
  cases category with
  | flush => exact accumFlushHistogram_eq hist (spaced rfl)
  | syscall => exact congrArg Except.ok (accumSelected_eq syscallKey inf hist)
  | insnsPerRcb => exact congrArg Except.ok (accumSelected_eq insnKey inf hist)
  | socketcall => exact congrArg Except.ok (accumSelected_eq socketcallKey inf hist)
  | futex => exact congrArg Except.ok (accumSelected_eq futexKey inf hist)
  | fcntl => exact congrArg Except.ok (accumSelected_eq fcntlKey inf hist)

theorem foldlM_accumulator {category : Category} (files : List Text) (hist : Histogram)
    (spaced : category = .flush → ∀ inf ∈ files, FlushesSpaced (iterevents inf)) :
    files.foldlM (fun hist inf => category.accumulator inf hist) hist =
      .ok ((category.fileKeys files).foldl Counter.incr hist) := by
  induction files generalizing hist with
  | nil => rfl
  | cons inf files ih =>
      rw [List.foldlM_cons, accumulator_eq hist fun hflush =>
        spaced hflush inf List.mem_cons_self, fileKeys, List.flatMap_cons,
        List.foldl_append]
      exact ih _ fun hflush other hother =>
        spaced hflush other (List.mem_cons_of_mem inf hother)

end Category

/-! Printing. -/

section MapM

variable {α β γ ε : Type} {f : α → Except ε β}

theorem exists_map_eq_ok {g : α → β} {x : Except ε α} :
    (∃ y, x.map g = .ok y) ↔ ∃ y, x = .ok y := by
  cases x <;> simp [Except.map]

theorem exists_mapM_eq_ok {xs : List α} :
    (∃ ys, xs.mapM f = .ok ys) ↔ ∀ x ∈ xs, ∃ y, f x = .ok y := by
  induction xs with
  | nil => simp [pure, Except.pure]
  | cons x xs ih =>
      rw [List.forall_mem_cons, ← ih, List.mapM_cons]
      cases f x with
      | error e => simp [bind, Except.bind]
      | ok y => cases xs.mapM f <;> simp [bind, Except.bind, pure, Except.pure]

theorem map_of_mapM_eq_ok {g : β → γ} {h : α → γ} (hfg : ∀ x y, f x = .ok y → g y = h x)
    {xs : List α} {ys : List β} (hmap : xs.mapM f = .ok ys) : ys.map g = xs.map h := by
  induction xs generalizing ys with
  | nil =>
      cases hmap
      rfl
  | cons x xs ih =>
      rw [List.mapM_cons] at hmap
      cases hx : f x with
      | error e =>
          rw [hx] at hmap
          cases hmap
      | ok y =>
          cases hxs : xs.mapM f with
          | error e =>
              rw [hx, hxs] at hmap
              cases hmap
          | ok rest =>
              rw [hx, hxs] at hmap
              cases hmap
              rw [List.map_cons, List.map_cons, hfg x y hx, ih hxs]

end MapM

theorem printRow_eq_ok (hist : Histogram) (total : Nat) (stringify : Option Stringifier)
    (k : Int) (row : Row) (h : printRow hist total stringify k = .ok row) :
    (row.key, row.count) = (k, hist.get k) := by
  simp only [printRow] at h
  split at h
  · cases h
  · cases stringify with
    | none => cases h
    | some stringify =>
        cases hname : stringify k with
        | error exn => simp [hname, Except.map] at h
        | ok name =>
            simp only [hname, Except.map, Except.ok.injEq] at h
            rw [← h]

theorem exists_printRow {total : Nat} (hpositive : 0 < total) (hist : Histogram)
    (stringify : Option Stringifier) (k : Int) :
    (∃ row, printRow hist total stringify k = .ok row) ↔
      ∃ f ∈ stringify, ∃ name, f k = .ok name := by
  simp only [printRow, Nat.ne_of_gt hpositive, if_false]
  cases stringify with
  | none => simp
  | some stringify => cases hname : stringify k <;> simp [hname, Except.map]

def histogramOf (keys : List Int) : Histogram := keys.foldl Counter.incr ∅

theorem get_histogramOf (keys : List Int) (k : Int) :
    (histogramOf keys).get k = keys.count k := by
  rw [histogramOf, Counter.get_foldl_incr]
  simp [Counter.get]

theorem mem_histogramOf (keys : List Int) (k : Int) : k ∈ histogramOf keys ↔ k ∈ keys := by
  rw [histogramOf, Counter.mem_foldl_incr]
  simp

section Print

variable {order : IterationOrder} {label : String} {keys : List Int}
  {stringify : Option Stringifier} {report : Report}

theorem ranked_perm_keys :
    ((histogramOf keys).ranked (order.1 (histogramOf keys))).Perm (histogramOf keys).keys :=
  Counter.ranked_perm.trans (order.2 _)

theorem reports_of_printHistogram
    (hprint : printHistogram order label (histogramOf keys) stringify = .ok report) :
    report.Reports label keys := by
  simp only [printHistogram] at hprint
  cases hrows : ((histogramOf keys).ranked (order.1 (histogramOf keys))).mapM
      (printRow (histogramOf keys)
        ((order.1 (histogramOf keys)).map (histogramOf keys).get).sum stringify) with
  | error exn => simp [hrows, Except.map] at hprint
  | ok rows =>
      simp only [hrows, Except.map, Except.ok.injEq] at hprint
      subst hprint
      have hpairs := map_of_mapM_eq_ok (printRow_eq_ok _ _ _) hrows
      have hkeys := map_of_mapM_eq_ok
        (fun k row h => congrArg Prod.fst (printRow_eq_ok _ _ _ k row h)) hrows
      have hcounts := map_of_mapM_eq_ok
        (fun k row h => congrArg Prod.snd (printRow_eq_ok _ _ _ k row h)) hrows
      rw [List.map_id'] at hkeys
      constructor
      · rfl
      · rw [hkeys, ranked_perm_keys.nodup_iff]
        exact (histogramOf keys).nodupKeys
      · intro k
        rw [hkeys, ranked_perm_keys.mem_iff, ← AList.mem_keys, mem_histogramOf]
      · have hsorted : (rows.map Row.count).Pairwise fun count next => next ≤ count := by
          rw [hcounts]
          exact List.pairwise_map.mpr Counter.pairwise_ranked
        exact List.pairwise_map.mp hsorted
      · intro row hrow
        have hmem := List.mem_map_of_mem hrow (f := fun row => (row.key, row.count))
        rw [hpairs] at hmem
        obtain ⟨k, _, hk⟩ := List.mem_map.mp hmem
        obtain ⟨rfl, hcount⟩ := Prod.mk.inj hk
        rw [← get_histogramOf, ← hcount]
      · rw [hcounts]
        exact ((Counter.ranked_perm.map _).sum_nat).symm

theorem exists_printHistogram :
    (∃ report, printHistogram order label (histogramOf keys) stringify = .ok report) ↔
      ∀ k ∈ keys, ∃ f ∈ stringify, ∃ name, f k = .ok name := by
  rw [printHistogram, exists_map_eq_ok, exists_mapM_eq_ok]
  apply forall_congr'
  intro k
  rw [ranked_perm_keys.mem_iff, ← AList.mem_keys, mem_histogramOf]
  apply forall_congr'
  intro hk
  apply exists_printRow
  -- the total is at least the count of this key
  have hmem : k ∈ order.1 (histogramOf keys) := by
    rw [(order.2 _).mem_iff, ← AList.mem_keys, mem_histogramOf]
    exact hk
  calc 0 < keys.count k := List.count_pos_iff.mpr hk
    _ = (histogramOf keys).get k := (get_histogramOf keys k).symm
    _ ≤ _ := List.le_sum_of_mem (List.mem_map_of_mem hmem)

end Print

/-! Which keys have names. -/

theorem exists_lookupName {names : List (Int × String)} {k : Int} :
    (∃ name, lookupName names k = .ok name) ↔ k ∈ names.map Prod.fst := by
  simp only [lookupName]
  induction names with
  | nil => simp
  | cons entry names ih =>
      obtain ⟨key, name⟩ := entry
      by_cases hk : k = key
      · simp [hk]
      · simp only [List.lookup_cons, beq_false_of_ne hk, List.map_cons, List.mem_cons, hk,
          false_or]
        exact ih

theorem land_futexCmdMask (op : Int) :
    Int.land (Int.land op futexCmdMask) futexCmdMask = Int.land op futexCmdMask := by
  have hmask : futexCmdMask = Int.negSucc 384 := by decide +kernel
  rw [hmask]
  cases op with
  | ofNat n =>
      simp only [Int.land]
      congr 1
      exact Nat.eq_of_testBit_eq fun i => by simp [Nat.testBit_ldiff]
  | negSucc n =>
      show Int.negSucc (n ||| 384 ||| 384) = Int.negSucc (n ||| 384)
      rw [Nat.lor_assoc, Nat.or_self]

namespace Category

def HasName : Category → Int → Prop
  | .syscall, _ | .flush, _ | .fcntl, _ => True
  | .insnsPerRcb, _ => False
  | .socketcall, k => 1 ≤ k ∧ k ≤ 20
  | .futex, k => 0 ≤ k ∧ k ≤ 12

theorem exists_name_iff (table : SyscallTable) (category : Category) {events : List Event}
    {k : Int} (hk : k ∈ category.selectedKeys events) :
    (∃ f ∈ category.stringifier table, ∃ name, f k = .ok name) ↔ category.HasName k := by
  cases category with
  | syscall => simp [stringifier, stringifySyscall, HasName]
  | flush => simp [stringifier, stringifySyscall, HasName]
  | insnsPerRcb => simp [stringifier, HasName]
  | fcntl => simp [stringifier, stringifyFcntl, HasName]
  | socketcall =>
      simp only [stringifier, stringifySocketcall, Option.mem_some_iff, exists_eq_left',
        HasName, exists_lookupName, socketcallNames]
      simp
      omega
  | futex =>
      obtain ⟨ev, _, hev⟩ := List.mem_filterMap.mp hk
      have hmasked : Int.land k futexCmdMask = k := by
        simp only [futexKey, Option.ite_none_right_eq_some, Option.some.injEq] at hev
        rw [← hev.2, land_futexCmdMask]
      simp only [stringifier, stringifyFutex, Option.mem_some_iff, exists_eq_left',
        HasName, exists_map_eq_ok, exists_lookupName, hmasked, futexNames]
      simp
      omega

end Category

theorem main_eq (table : SyscallTable) (order : IterationOrder) {category : Category}
    {files : List Text}
    (spaced : category = .flush →
      ∀ inf ∈ files, Category.FlushesSpaced (iterevents inf)) :
    main table order category.name files =
      printHistogram order category.name (histogramOf (category.fileKeys files))
        (category.stringifier table) := by
  simp only [main, Category.lookupAccumStringify_name, Category.foldlM_accumulator files ∅ spaced]
  rfl

/-- The program reports a histogram exactly if all of its keys have names. -/
theorem main_reports_iff (table : SyscallTable) (order : IterationOrder)
    (category : Category) (files : List Text)
    (spaced : category = .flush →
      ∀ inf ∈ files, Category.FlushesSpaced (iterevents inf)) :
    (∃ report, main table order category.name files = .ok report ∧
        report.Reports category.name (category.fileKeys files)) ↔
      ∀ k ∈ category.fileKeys files, category.HasName k := by
  have hname : ∀ k ∈ category.fileKeys files,
      (∃ f ∈ category.stringifier table, ∃ name, f k = .ok name) ↔ category.HasName k := by
    intro k hk
    obtain ⟨inf, _, hinf⟩ := List.mem_flatMap.mp hk
    exact category.exists_name_iff table hinf
  have hprint : (∃ report, printHistogram order category.name
      (histogramOf (category.fileKeys files)) (category.stringifier table) = .ok report) ↔
        _ := exists_printHistogram
  rw [← forall₂_congr hname, ← hprint, main_eq table order spaced]
  constructor
  · rintro ⟨report, hreport, _⟩
    exact ⟨report, hreport⟩
  · rintro ⟨report, hreport⟩
    exact ⟨report, hreport, reports_of_printHistogram hreport⟩

def insertionOrder : IterationOrder := ⟨fun hist => hist.keys, fun _ => .refl _⟩

theorem main_reports_iff_flushedRead :
    ∃ report, main (readSyscalls "#define __NR_read 3".toList) insertionOrder "flush"
        [" 1 1 7 -1018\n 2 2 7 3\n".toList] = .ok report ∧
      report.Reports "flush" [3] := by
  have hkeys : Category.flush.fileKeys [" 1 1 7 -1018\n 2 2 7 3\n".toList] = [3] := by
    decide +kernel
  have hreport := (main_reports_iff (readSyscalls "#define __NR_read 3".toList)
    insertionOrder .flush [" 1 1 7 -1018\n 2 2 7 3\n".toList]
    (fun _ => by decide +kernel)).mpr (fun _ _ => trivial)
  rwa [hkeys] at hreport

/-- One event is enough for a histogram that is never printed: `insns/rcb` has no
function for the names, `socketcall` and `futex` know the operations of their time. -/
theorem main_raises :
    main (fun _ => none) insertionOrder "insns/rcb"
        [" 1 1 7 3 0 0 0 5 10 0 0 0 0 0 0 0 3\n".toList] = .error .typeError ∧
    main (fun _ => none) insertionOrder "socketcall"
        [" 1 1 7 102 0 0 0 0 0 0 21 0 0 0 0 0 102\n".toList] = .error (.keyError 21) ∧
    main (fun _ => none) insertionOrder "futex"
        [" 1 1 7 240 0 0 0 0 0 0 0 141 0 0 0 0 240\n".toList] = .error (.keyError 13) := by
  decide +kernel

end RrWorkbench.HistogramTrace
