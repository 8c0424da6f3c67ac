import RrWorkbench.Data.CNumber
import RrWorkbench.Regtrace

namespace RrWorkbench.Status2text

open RrWorkbench.Data
open RrWorkbench.Regtrace

/-! `status2text.c`: says in words what a wait status stands for.  A status is read as an
`unsigned long` of 32 bits. -/

abbrev Text : Type := List Char

def wcoredump (status : Nat) : Bool := status / 0x80 % 2 == 1

def wifcontinued (status : Nat) : Bool := status == 0xffff

/-! The words that are printed. -/

def exitedWords : Text := "exited with code ".toList

def terminatedWords : Text := "terminated by signal ".toList

def coreWords : Text := " (dumped core)".toList

def stoppedWords : Text := "stopped by signal ".toList

def eventWords : Text := " (ptrace event ".toList

def resumedWords : Text := "resumed by SIGCONT\n".toList

def unknownWords : Text := "unknown status\n".toList

def describe (status : Nat) : Text :=
  if wifexited status then
    exitedWords ++ Nat.toDigits 10 (wexitstatus status) ++ ['\n']
  else if wifsignaled status then
    terminatedWords ++ Nat.toDigits 10 (wtermsig status) ++
      (if wcoredump status then coreWords else []) ++ ['\n']
  else if wifstopped status then
    stoppedWords ++ Nat.toDigits 10 (wstopsig status) ++
      (if ptraceEvent status ≠ 0 then
        eventWords ++ Nat.toDigits 10 (ptraceEvent status) ++ [')']
      else []) ++ ['\n']
  else if wifcontinued status then resumedWords
  else unknownWords

def line (status : Nat) : Text :=
  NumberForm.hexadecimal.write status ++ ": ".toList ++ describe status

structure Output where
  stdout : Text
  stderr : Text
  exitCode : Nat
  deriving DecidableEq, Repr

def printUsage (exe : Text) : Text :=
  "Usage: ".toList ++ exe ++ " <waitpid-status>...\n".toList

/-- `argv` behind the name of the program. -/
def main (exe : Text) (argv : List Text) : Output :=
  if argv = [] then { stdout := [], stderr := printUsage exe, exitCode := 1 }
  else
    { stdout := argv.flatMap fun arg => line (strtoul 32 arg), stderr := [], exitCode := 0 }

/-! What the kernel reports to `waitpid`, with the status that stands for it. -/

inductive Report
  | exited (code : Nat)
  | signaled (sig : Nat) (dumpedCore : Bool)
  | stopped (sig event : Nat)
  | continued
  deriving DecidableEq, Repr

namespace Report

def status : Report → Nat
  | .exited code => code * 0x100
  | .signaled sig dumpedCore => sig + if dumpedCore then 0x80 else 0
  | .stopped sig event => stopStatus event sig
  | .continued => 0xffff

def Valid : Report → Prop
  | .exited code => code < 0x100
  | .signaled sig _ => 0 < sig ∧ sig < 0x7f
  | .stopped sig event => sig < 0x100 ∧ event < 0x100
  | .continued => True

instance : ∀ report : Report, Decidable report.Valid
  | .exited code => inferInstanceAs (Decidable (code < 0x100))
  | .signaled sig _ => inferInstanceAs (Decidable (0 < sig ∧ sig < 0x7f))
  | .stopped sig event => inferInstanceAs (Decidable (sig < 0x100 ∧ event < 0x100))
  | .continued => inferInstanceAs (Decidable True)

def text : Report → Text
  | .exited code => exitedWords ++ (Nat.toDigits 10 code ++ ['\n'])
  | .signaled sig dumpedCore =>
      terminatedWords ++ (Nat.toDigits 10 sig ++
        ((if dumpedCore then coreWords else []) ++ ['\n']))
  | .stopped sig event =>
      stoppedWords ++ (Nat.toDigits 10 sig ++
        ((if event ≠ 0 then eventWords ++ (Nat.toDigits 10 event ++ [')'])
          else []) ++ ['\n']))
  | .continued => resumedWords

theorem status_lt {report : Report} (valid : report.Valid) : report.status < 2 ^ 32 := by
  cases report with
  | exited code =>
      have hcode : code < 0x100 := valid
      show code * 0x100 < 2 ^ 32
      omega
  | signaled sig dumpedCore =>
      have hsig : 0 < sig ∧ sig < 0x7f := valid
      show sig + (if dumpedCore then 0x80 else 0) < 2 ^ 32
      split
      · omega
      · omega
  | stopped sig event =>
      have hstop : sig < 0x100 ∧ event < 0x100 := valid
      show event * 0x10000 + sig * 0x100 + 0x7f < 2 ^ 32
      omega
  | continued => exact (by decide : 0xffff < 2 ^ 32)

/-! The macros on the statuses of the reports. -/

theorem macros_exited {code : Nat} (hcode : code < 0x100) :
    wifexited (code * 0x100) = true ∧ wexitstatus (code * 0x100) = code := by
  constructor
  · simp only [wifexited, wtermsig, beq_iff_eq]
    omega
  · simp only [wexitstatus]
    omega

theorem macros_signaled {sig : Nat} (hpositive : 0 < sig) (hsig : sig < 0x7f)
    (dumpedCore : Bool) :
    wifexited (sig + if dumpedCore then 0x80 else 0) = false ∧
      wifsignaled (sig + if dumpedCore then 0x80 else 0) = true ∧
      wtermsig (sig + if dumpedCore then 0x80 else 0) = sig ∧
      wcoredump (sig + if dumpedCore then 0x80 else 0) = dumpedCore := by
  have hterm : wtermsig (sig + if dumpedCore then 0x80 else 0) = sig := by
    simp only [wtermsig]
    split
    · omega
    · omega
  refine ⟨?_, ?_, hterm, ?_⟩
  · rw [wifexited, hterm, beq_eq_false_iff_ne]
    omega
  · rw [wifsignaled, hterm, Bool.and_eq_true, decide_eq_true_eq, decide_eq_true_eq]
    exact ⟨hpositive, hsig⟩
  · cases dumpedCore with
    | true =>
        simp only [wcoredump, if_true, beq_iff_eq]
        omega
    | false =>
        simp only [wcoredump, Bool.false_eq_true, if_false, beq_eq_false_iff_ne]
        omega

theorem describe_status {report : Report} (valid : report.Valid) :
    describe report.status = report.text := by
  cases report with
  | exited code =>
      obtain ⟨hexited, hcode⟩ := macros_exited valid
      rw [status, describe, if_pos hexited, hcode, text, List.append_assoc]
  | signaled sig dumpedCore =>
      obtain ⟨hexited, hsignaled, hterm, hcore⟩ :=
        macros_signaled valid.1 valid.2 dumpedCore
      rw [status, describe, hexited, if_neg Bool.false_ne_true, if_pos hsignaled, hterm,
        hcore, text, List.append_assoc, List.append_assoc]
  | stopped sig event =>
      obtain ⟨hsig, hevent⟩ := valid
      obtain ⟨hexited, hsignaled, hstopped⟩ := wifstopped_stopStatus event sig
      rw [status, describe, hexited, if_neg Bool.false_ne_true, hsignaled,
        if_neg Bool.false_ne_true, if_pos hstopped, wstopsig_stopStatus hsig,
        ptraceEvent_stopStatus hevent hsig, text, List.append_assoc, List.append_assoc,
        List.append_assoc]
  | continued => decide +kernel

/-- The first letter tells the kind of report. -/
def initial : Report → Char
  | .exited _ => 'e'
  | .signaled _ _ => 't'
  | .stopped _ _ => 's'
  | .continued => 'r'

theorem head?_text (report : Report) : report.text.head? = some report.initial := by
  cases report with
  | exited _ | signaled _ _ | stopped _ _ =>
      rw [text, List.head?_append]
      rfl
  | continued => rfl

theorem initial_eq {report other : Report} (h : report.text = other.text) :
    report.initial = other.initial := by
  have hhead := congrArg List.head? h
  rw [head?_text, head?_text] at hhead
  exact Option.some.inj hhead

/-! What stands behind a number begins with no digit. -/

theorem stop_core (dumpedCore : Bool) :
    ∀ c ∈ ((if dumpedCore then coreWords else []) ++ ['\n']).head?,
      digitIn 10 c = none := by
  cases dumpedCore with
  | true =>
      rintro c ⟨⟩
      rfl
  | false =>
      rintro c ⟨⟩
      rfl

theorem stop_event (event : Nat) :
    ∀ c ∈ ((if event ≠ 0 then eventWords ++ (Nat.toDigits 10 event ++ [')'])
      else []) ++ ['\n']).head?, digitIn 10 c = none := by
  split
  · rintro c ⟨⟩
    rfl
  · rintro c ⟨⟩
    rfl

theorem stop_char {stop : Char} (hstop : digitIn 10 stop = none) :
    ∀ c ∈ [stop].head?, digitIn 10 c = none := by
  rintro c ⟨⟩
  exact hstop

theorem text_injective {report other : Report} (h : report.text = other.text) :
    report = other := by
  have hinitial := initial_eq h
  cases report with
  | exited code =>
      cases other with
      | exited code' =>
          have hcode := toDigits_append_inj (show 1 < 10 by decide) (by decide)
            (stop_char rfl) (stop_char rfl) (List.append_cancel_left h)
          rw [hcode.1]
      | signaled _ _ | stopped _ _ | continued => simp [initial] at hinitial
  | signaled sig dumpedCore =>
      cases other with
      | signaled sig' dumpedCore' =>
          obtain ⟨rfl, hrest⟩ := toDigits_append_inj (show 1 < 10 by decide) (by decide)
            (stop_core dumpedCore) (stop_core dumpedCore') (List.append_cancel_left h)
          have hcore : dumpedCore = dumpedCore' := by
            revert hrest
            cases dumpedCore <;> cases dumpedCore' <;> decide +kernel
          rw [hcore]
      | exited _ | stopped _ _ | continued => simp [initial] at hinitial
  | stopped sig event =>
      cases other with
      | stopped sig' event' =>
          obtain ⟨rfl, hrest⟩ := toDigits_append_inj (show 1 < 10 by decide) (by decide)
            (stop_event event) (stop_event event') (List.append_cancel_left h)
          have hpart := List.append_cancel_right hrest
          by_cases hzero : event = 0
          · by_cases hzero' : event' = 0
            · rw [hzero, hzero']
            · rw [if_neg (not_not_intro hzero), if_pos hzero'] at hpart
              have hwords := (List.append_eq_nil_iff.mp hpart.symm).1
              exact absurd hwords (by decide +kernel)
          · by_cases hzero' : event' = 0
            · rw [if_pos hzero, if_neg (not_not_intro hzero')] at hpart
              have hwords := (List.append_eq_nil_iff.mp hpart).1
              exact absurd hwords (by decide +kernel)
            · rw [if_pos hzero, if_pos hzero'] at hpart
              have hevents := toDigits_append_inj (show 1 < 10 by decide) (by decide)
                (stop_char rfl) (stop_char rfl) (List.append_cancel_left hpart)
              rw [hevents.1]
      | exited _ | signaled _ _ | continued => simp [initial] at hinitial
  | continued =>
      cases other with
      | continued => rfl
      | exited _ | signaled _ _ | stopped _ _ => simp [initial] at hinitial

end Report

/-- Whatever statuses of reports `main` is given, written in any form, it prints each one
with its report in words; the words tell the reports apart, and the number that is
printed is read as the status again. -/
theorem main_describes_reports (exe : Text) (reports : List (Report × NumberForm))
    (hne : reports ≠ []) (valid : ∀ entry ∈ reports, entry.1.Valid) :
    main exe (reports.map fun entry => entry.2.write entry.1.status) =
        { stdout := reports.flatMap fun entry =>
            NumberForm.hexadecimal.write entry.1.status ++ ": ".toList ++ entry.1.text
          stderr := []
          exitCode := 0 } ∧
      (∀ entry ∈ reports, ∀ other ∈ reports, entry.1.text = other.1.text →
        entry.1 = other.1) ∧
      ∀ entry ∈ reports, strtoul 32 (NumberForm.hexadecimal.write entry.1.status) =
        entry.1.status := by
  refine ⟨?_, fun entry _ other _ h => Report.text_injective h, fun entry hentry =>
    strtoul_write (Report.status_lt (valid entry hentry)) .hexadecimal⟩
  have hargs : reports.map (fun entry => entry.2.write entry.1.status) ≠ [] := by
    simpa using hne
  have hlines : ∀ entry ∈ reports, line (strtoul 32 (entry.2.write entry.1.status)) =
      NumberForm.hexadecimal.write entry.1.status ++ ": ".toList ++ entry.1.text := by
    intro entry hentry
    have hvalid := valid entry hentry
    rw [strtoul_write (Report.status_lt hvalid) entry.2, line, Report.describe_status hvalid]
  rw [main, if_neg hargs, List.flatMap_map, List.flatMap_def, List.map_congr_left hlines,
    ← List.flatMap_def]

/-- A seccomp stop in hexadecimal and a crash in octal. -/
theorem main_describes_reports_seccompAndCrash :
    [(Report.stopped 5 7, NumberForm.hexadecimal), (.signaled 11 true, .octal)] ≠ [] ∧
      main "status2text".toList ["0x7057f".toList, "0213".toList] =
        { stdout := ("0x7057f: stopped by signal 5 (ptrace event 7)\n" ++
            "0x8b: terminated by signal 11 (dumped core)\n").toList
          stderr := []
          exitCode := 0 } :=
  ⟨by decide,
    (main_describes_reports "status2text".toList
      [(.stopped 5 7, .hexadecimal), (.signaled 11 true, .octal)] (by decide)
      (by decide)).1⟩

end RrWorkbench.Status2text
