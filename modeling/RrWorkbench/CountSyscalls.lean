import RrWorkbench.Data.CNumber
import RrWorkbench.HistogramTrace

namespace RrWorkbench.CountSyscalls

open RrWorkbench.Data
open RrWorkbench.HistogramTrace

/-! `count-syscalls`: counts the lines of a trace whose fourth field is the given number,
with `awk`, `grep` and `wc`.  It reads the same files as `histogram-trace`. -/

/-- What the script finds outside of it.  `matching` has the names that match a pattern of
the shell, and `grep` tells whether a line matches a regular expression as a whole. -/
structure Environment where
  basename : Text
  stdin : Text
  file : Text → Option Text
  matching : Text → List Text
  grep : Text → Text → Bool

/-- What separates the fields of a record of `awk`. -/
def isBlank (c : Char) : Bool := c == ' ' || c == '\t'

/-- `$IFS` -/
def isIfs (c : Char) : Bool := isBlank c || c == '\n'

def splitFields (separates : Char → Bool) (field : Text) : Text → List Text
  | [] => if field = [] then [] else [field]
  | c :: rest =>
      if separates c then
        if field = [] then splitFields separates [] rest
        else field :: splitFields separates [] rest
      else splitFields separates (field ++ [c]) rest

/-- `awk '{print $4}'`, line by line. -/
def printFourth (trace : Text) : List Text :=
  (lines (· == '\n') trace).map fun line =>
    (splitFields isBlank [] (line.takeWhile (· != '\n')))[3]?.getD []

/-! The words that an expansion without quotes is split into.  Each is a pattern for the
names of files, and an operand of `awk`. -/

def isWildcard (c : Char) : Bool := c == '*' || c == '?' || c == '[' || c == '\\'

/-- A pattern that no name matches stays as it is. -/
def Environment.expandWord (env : Environment) (word : Text) : List Text :=
  if word.any isWildcard then
    match env.matching word with
    | [] => [word]
    | names => names
  else [word]

def Environment.words (env : Environment) (value : Text) : List Text :=
  (splitFields isIfs [] value).flatMap env.expandWord

def isIdentifier : Text → Bool
  | [] => false
  | c :: rest => (c.isAlpha || c == '_') && rest.all fun c => c.isAlphanum || c == '_'

/-- `awk` takes the operand for `name=value`. -/
def isAssignment (operand : Text) : Bool :=
  operand.any (· == '=') && isIdentifier (operand.takeWhile (· != '='))

/-- `gawk` passes over files that it cannot read. -/
def Environment.awk (env : Environment) (operands : List Text) : List Text :=
  if operands = [] then printFourth env.stdin
  else
    (operands.filterMap fun operand =>
      if operand = ['-'] then some env.stdin else env.file operand).flatMap printFourth

def isRegexSpecial (c : Char) : Bool :=
  c == '.' || c == '*' || c == '[' || c == '\\' || c == '^' || c == '$' || c == '\n'

/-- `grep -e "^$syscallnum$" | wc -l` -/
def Environment.countMatching (env : Environment) (syscallnum : Text)
    (printed : List Text) : Nat :=
  if syscallnum.any isRegexSpecial then printed.countP (env.grep syscallnum)
  else printed.count syscallnum

inductive Outcome
  | printed (stdout : Text)
  /-- The script exits with 1. -/
  | failed (stderr : Text)
  /-- An operand gives a variable of `awk` a value; what that does is left out. -/
  | assigns
  deriving DecidableEq, Repr

def main (env : Environment) : List Text → Outcome
  | [dir, syscallnum] =>
      let trace := dir ++ "/trace_0".toList
      -- within `[[ ]]` the expansion is one word
      match env.file trace with
      | none => .failed ("Error: ".toList ++ trace ++ " isn't a file\n".toList)
      | some _ =>
          if (env.words trace).any isAssignment then .assigns
          else
            .printed (Nat.toDigits 10 (env.countMatching syscallnum
              (env.awk (env.words trace))) ++ ['\n'])
  | _ => .failed ("Usage:\n  ".toList ++ env.basename ++ " trace-file syscall-num\n".toList)

/-! Traces as they are written: in every line each number stands behind blanks. -/

def intText : Int → Text
  | .ofNat n => Nat.toDigits 10 n
  | .negSucc n => '-' :: Nat.toDigits 10 (n + 1)

structure Entry where
  blanks : Text
  value : Int
  nonempty : blanks ≠ []
  blank : ∀ c ∈ blanks, isBlank c = true

def renderLine (entries : List Entry) : Text :=
  entries.flatMap fun entry => entry.blanks ++ intText entry.value

def render (trace : List (List Entry)) : Text :=
  trace.flatMap fun entries => renderLine entries ++ ['\n']

def eventOf (entries : List Entry) : Option Event :=
  if traceFields.length ≤ entries.length then
    some (Event.ofGroups (traceFields.zip (entries.map Entry.value)))
  else if 4 ≤ entries.length then
    some (Event.ofGroups ((traceFields.take 4).zip (entries.map Entry.value)))
  else none

/-! The characters of numbers. -/

theorem plain_of_mem_intText (v : Int) :
    ∀ c ∈ intText v, isIfs c = false ∧ isSpace c = false ∧ isRegexSpecial c = false := by
  have hdigit : ∀ c : Char, c.isDigit = true →
      isIfs c = false ∧ isSpace c = false ∧ isRegexSpecial c = false := by
    intro c hc
    have hrange : 48 ≤ c.toNat ∧ c.toNat ≤ 57 := by
      simpa [Char.isDigit, UInt32.le_iff_toNat_le] using hc
    have hne : ∀ d : Char, d.toNat < 48 ∨ 57 < d.toNat → c ≠ d := by
      rintro d hd rfl
      omega
    refine ⟨?_, ?_, ?_⟩
    · simp [isIfs, isBlank, hne ' ' (by decide), hne '\t' (by decide), hne '\n' (by decide)]
    · simp only [isSpace, List.mem_cons, List.not_mem_nil, or_false, decide_eq_false_iff_not]
      omega
    · simp [isRegexSpecial, hne '.' (by decide), hne '*' (by decide), hne '[' (by decide),
        hne '\\' (by decide), hne '^' (by decide), hne '$' (by decide),
        hne '\n' (by decide)]
  intro c hc
  cases v with
  | ofNat n => exact hdigit c (Nat.isDigit_of_mem_toDigits (by decide) (by decide) hc)
  | negSucc n =>
      rcases List.mem_cons.mp hc with rfl | hc
      · decide
      · exact hdigit c (Nat.isDigit_of_mem_toDigits (by decide) (by decide) hc)

theorem isIfs_eq_false {c : Char} (h : isIfs c = false) : isBlank c = false ∧ c ≠ '\n' := by
  rw [isIfs, Bool.or_eq_false_iff, beq_eq_false_iff_ne] at h
  exact h

theorem not_blank_of_mem_intText (v : Int) : ∀ c ∈ intText v, isBlank c = false :=
  fun c hc => (isIfs_eq_false (plain_of_mem_intText v c hc).1).1

theorem intText_ne_nil (v : Int) : intText v ≠ [] := by
  cases v with
  | ofNat n => exact Nat.toDigits_ne_nil
  | negSucc n => exact List.cons_ne_nil _ _

theorem intText_injective {v w : Int} (h : intText v = intText w) : v = w := by
  have hminus : ∀ n m : Nat, Nat.toDigits 10 n ≠ '-' :: Nat.toDigits 10 m := by
    intro n m heq
    have hdigit : ('-').isDigit = true := Nat.isDigit_of_mem_toDigits (show 0 < 10 by decide)
      (by decide) (heq ▸ List.mem_cons_self)
    exact absurd hdigit (by decide)
  have hdigits : ∀ n m : Nat, Nat.toDigits 10 n = Nat.toDigits 10 m → n = m := by
    intro n m heq
    rw [← scanNumber_toDigits_all (show 1 < 10 by decide) (by decide) n, heq,
      scanNumber_toDigits_all (by decide) (by decide) m]
  cases v with
  | ofNat n =>
      cases w with
      | ofNat m => rw [hdigits n m h]
      | negSucc m => exact absurd h (hminus n (m + 1))
  | negSucc n =>
      cases w with
      | ofNat m => exact absurd h.symm (hminus m (n + 1))
      | negSucc m =>
          have hsucc := hdigits (n + 1) (m + 1) (List.cons.inj h).2
          rw [Nat.succ.inj hsucc]

/-! `histogram-trace` reads a line that was written back. -/

def Ends (rest : Text) : Prop := ∀ c ∈ rest.head?, c.isDigit = false

theorem takeWhile_of_ends {rest : Text} (ends : Ends rest) :
    rest.takeWhile Char.isDigit = [] ∧ rest.dropWhile Char.isDigit = rest := by
  cases rest with
  | nil => exact ⟨rfl, rfl⟩
  | cons c rest =>
      have hc := ends c rfl
      simp [hc]

theorem scanDigits_toDigits (n : Nat) {rest : Text} (ends : Ends rest) :
    scanDigits (Nat.toDigits 10 n ++ rest) = some (n, rest) := by
  obtain ⟨htake, hdrop⟩ := takeWhile_of_ends ends
  have hdigits : ∀ c ∈ Nat.toDigits 10 n, c.isDigit = true := fun _ =>
    Nat.isDigit_of_mem_toDigits (by decide) (by decide)
  rw [scanDigits, List.takeWhile_append_of_pos hdigits, List.dropWhile_append_of_pos hdigits,
    htake, hdrop, List.append_nil]
  split
  next hnil => exact absurd hnil Nat.toDigits_ne_nil
  next =>
    have hvalue := Nat.ofDigitChars_toDigits (n := n) (show 1 < 10 by decide) (by decide)
    rw [Nat.ofDigitChars] at hvalue
    rw [hvalue]

theorem isSpace_of_isBlank {c : Char} (h : isBlank c = true) : isSpace c = true := by
  rw [isBlank, Bool.or_eq_true, beq_iff_eq, beq_iff_eq] at h
  rcases h with rfl | rfl
  · decide
  · decide

theorem dropWhile_blanks (entry : Entry) (rest : Text) :
    (entry.blanks ++ (intText entry.value ++ rest)).dropWhile isSpace =
      intText entry.value ++ rest := by
  rw [List.dropWhile_append_of_pos fun c hc => isSpace_of_isBlank (entry.blank c hc)]
  cases htext : intText entry.value with
  | nil => exact absurd htext (intText_ne_nil entry.value)
  | cons c text =>
      have hc := plain_of_mem_intText entry.value c (htext ▸ List.mem_cons_self)
      rw [List.cons_append, List.dropWhile_cons_of_neg]
      rw [hc.2.1]
      exact Bool.false_ne_true

theorem scanInt_entry (entry : Entry) {rest : Text} (ends : Ends rest) :
    scanInt (entry.blanks ++ intText entry.value ++ rest) = some (entry.value, rest) := by
  have hdrop := dropWhile_blanks entry rest
  rw [List.append_assoc]
  cases hblanks : entry.blanks with
  | nil => exact absurd hblanks entry.nonempty
  | cons b blanks =>
      have hb := isSpace_of_isBlank (entry.blank b (hblanks ▸ List.mem_cons_self))
      rw [hblanks, List.cons_append, List.dropWhile_cons_of_pos hb] at hdrop
      rw [List.cons_append, scanInt, if_pos hb, hdrop]
      cases hvalue : entry.value with
      | ofNat n =>
          -- the digits do not begin with a minus sign
          rw [intText]
          split
          next text heq =>
            obtain ⟨digit, digits, hdigits, _⟩ :=
              exists_toDigits_eq_cons (show 1 < 10 by decide) n
            rw [hdigits, List.cons_append] at heq
            have hminus : digit.digitChar.isDigit = true :=
              Nat.isDigit_of_mem_toDigits (show 0 < 10 by decide) (by decide)
                (hdigits ▸ List.mem_cons_self)
            rw [(List.cons.inj heq).1] at hminus
            exact absurd hminus (by decide)
          next => rw [scanDigits_toDigits n ends]; rfl
      | negSucc n =>
          rw [intText, List.cons_append]
          show (scanDigits (Nat.toDigits 10 (n + 1) ++ rest)).map _ = _
          rw [scanDigits_toDigits (n + 1) ends]
          rfl

theorem ends_renderLine (entries : List Entry) : Ends (renderLine entries ++ ['\n']) := by
  cases entries with
  | nil =>
      rintro c ⟨⟩
      decide
  | cons entry entries =>
      cases hblanks : entry.blanks with
      | nil => exact absurd hblanks entry.nonempty
      | cons b blanks =>
          intro c hc
          have hb := entry.blank b (hblanks ▸ List.mem_cons_self)
          rw [renderLine, List.flatMap_cons, hblanks] at hc
          obtain rfl : b = c := Option.some.inj hc
          rw [isBlank, Bool.or_eq_true, beq_iff_eq, beq_iff_eq] at hb
          rcases hb with rfl | rfl
          · decide
          · decide

theorem renderLine_cons (entry : Entry) (entries : List Entry) :
    renderLine (entry :: entries) =
      entry.blanks ++ intText entry.value ++ renderLine entries :=
  List.flatMap_cons

theorem makeIntScanner_renderLine (names : List Field) (entries : List Entry) :
    makeIntScanner names (renderLine entries ++ ['\n']) =
      if names.length ≤ entries.length then some (names.zip (entries.map Entry.value))
      else none := by
  induction names generalizing entries with
  | nil => simp [makeIntScanner]
  | cons name names ih =>
      cases entries with
      | nil => rfl
      | cons entry entries =>
          rw [makeIntScanner, renderLine_cons, List.append_assoc,
            scanInt_entry entry (ends_renderLine entries), Option.bind_some]
          show (makeIntScanner names (renderLine entries ++ ['\n'])).map _ = _
          rw [ih]
          by_cases hlength : names.length ≤ entries.length
          · simp [hlength]
          · simp [hlength]

theorem eventOfLine_renderLine (entries : List Entry) :
    eventOfLine (renderLine entries ++ ['\n']) = eventOf entries := by
  have hfour : (traceFields.take 4).length = 4 := rfl
  rw [eventOfLine, makeIntScanner_renderLine, makeIntScanner_renderLine, hfour, eventOf]
  by_cases hall : traceFields.length ≤ entries.length
  · rw [if_pos hall, if_pos hall]
    rfl
  · rw [if_neg hall, if_neg hall]
    by_cases hsome : 4 ≤ entries.length
    · rw [if_pos hsome, if_pos hsome]
      rfl
    · rw [if_neg hsome, if_neg hsome]
      rfl

/-! `awk` reads the same fields. -/

theorem splitFields_blanks (blanks : Text) (hblanks : ∀ c ∈ blanks, isBlank c = true)
    (rest : Text) : splitFields isBlank [] (blanks ++ rest) = splitFields isBlank [] rest := by
  induction blanks with
  | nil => rfl
  | cons b blanks ih =>
      have hb := hblanks b List.mem_cons_self
      rw [List.cons_append, splitFields, if_pos hb, if_pos rfl,
        ih fun c hc => hblanks c (List.mem_cons_of_mem b hc)]

theorem splitFields_text {separates : Char → Bool} (field text : Text)
    (htext : ∀ c ∈ text, separates c = false) (rest : Text) :
    splitFields separates field (text ++ rest) =
      splitFields separates (field ++ text) rest := by
  induction text generalizing field with
  | nil => rw [List.append_nil, List.nil_append]
  | cons c text ih =>
      have hc := htext c List.mem_cons_self
      rw [List.cons_append, splitFields, hc, if_neg Bool.false_ne_true,
        ih (field ++ [c]) fun d hd => htext d (List.mem_cons_of_mem c hd),
        List.append_assoc, List.singleton_append]

theorem splitFields_renderLine {field : Text} (hfield : field ≠ [])
    (entries : List Entry) :
    splitFields isBlank field (renderLine entries) =
      field :: entries.map fun entry => intText entry.value := by
  induction entries generalizing field with
  | nil =>
      show (if field = [] then [] else [field]) = [field]
      rw [if_neg hfield]
  | cons entry entries ih =>
      have htext := not_blank_of_mem_intText entry.value
      cases hblanks : entry.blanks with
      | nil => exact absurd hblanks entry.nonempty
      | cons b blanks =>
          have hall := entry.blank
          rw [hblanks] at hall
          rw [renderLine_cons, hblanks, List.cons_append, List.cons_append, splitFields,
            if_pos (hall b List.mem_cons_self), if_neg hfield, List.append_assoc,
            splitFields_blanks blanks fun c hc => hall c (List.mem_cons_of_mem b hc),
            splitFields_text [] _ htext, List.nil_append,
            ih (intText_ne_nil entry.value), List.map_cons]

theorem splitFields_line (entries : List Entry) :
    splitFields isBlank [] (renderLine entries) = entries.map fun entry => intText entry.value := by
  cases entries with
  | nil => rfl
  | cons entry entries =>
      have htext := not_blank_of_mem_intText entry.value
      rw [renderLine_cons, List.append_assoc, splitFields_blanks _ entry.blank,
        splitFields_text [] _ htext, List.nil_append,
        splitFields_renderLine (intText_ne_nil entry.value), List.map_cons]

/-! The two programs on a whole trace. -/

theorem unbroken_renderLine (entries : List Entry) :
    ∀ c ∈ renderLine entries, (c == '\n') = false := by
  intro c hc
  obtain ⟨entry, _, hc⟩ := List.mem_flatMap.mp hc
  rw [beq_eq_false_iff_ne]
  rcases List.mem_append.mp hc with hc | hc
  · rintro rfl
    exact absurd (entry.blank _ hc) (by decide)
  · exact (isIfs_eq_false (plain_of_mem_intText entry.value c hc).1).2

theorem lines_render (trace : List (List Entry)) :
    lines (· == '\n') (render trace) =
      trace.map fun entries => renderLine entries ++ ['\n'] := by
  induction trace with
  | nil => rfl
  | cons entries trace ih =>
      have hrender : render (entries :: trace) =
          renderLine entries ++ '\n' :: render trace := by
        rw [render, List.flatMap_cons, List.append_assoc]
        rfl
      rw [hrender, lines_append _ _ (unbroken_renderLine entries) rfl, ih, List.map_cons]

theorem iterevents_render (trace : List (List Entry)) :
    iterevents (render trace) = trace.filterMap eventOf := by
  rw [iterevents, lines_render, List.filterMap_map]
  congr 1
  funext entries
  exact eventOfLine_renderLine entries

theorem printFourth_render (trace : List (List Entry)) :
    printFourth (render trace) =
      trace.map fun entries => ((entries[3]?).map fun entry => intText entry.value).getD [] := by
  rw [printFourth, lines_render, List.map_map]
  apply List.map_congr_left
  intro entries _
  have hline : (renderLine entries ++ ['\n']).takeWhile (· != '\n') = renderLine entries := by
    rw [List.takeWhile_append_of_pos fun c hc => by
      rw [bne, unbroken_renderLine entries c hc]; rfl]
    simp
  simp only [Function.comp_apply, hline, splitFields_line, List.getElem?_map]

theorem reason_eventOf (entries : List Entry) :
    (eventOf entries).map (fun ev => ev .reason) = entries[3]?.map Entry.value := by
  match entries with
  | [] | [_] | [_, _] | [_, _, _] => rfl
  | first :: second :: third :: fourth :: rest =>
      rw [eventOf]
      split
      · rfl
      · rw [if_pos (by simp)]
        rfl

theorem count_printFourth (trace : List (List Entry)) (n : Int) :
    (printFourth (render trace)).count (intText n) =
      (trace.filterMap eventOf).countP fun ev => decide (ev .reason = n) := by
  rw [printFourth_render]
  induction trace with
  | nil => rfl
  | cons entries trace ih =>
      have hreason := reason_eventOf entries
      rw [List.map_cons, List.count_cons, ih]
      cases hevent : eventOf entries with
      | none =>
          rw [hevent, Option.map_none, eq_comm, Option.map_eq_none_iff] at hreason
          rw [List.filterMap_cons_none hevent, hreason, Option.map_none, Option.getD_none,
            if_neg, Nat.add_zero]
          rw [beq_iff_eq]
          exact (intText_ne_nil n).symm
      | some ev =>
          rw [hevent, Option.map_some, eq_comm, Option.map_eq_some_iff] at hreason
          obtain ⟨entry, hentry, hvalue⟩ := hreason
          rw [List.filterMap_cons_some hevent, List.countP_cons, hentry, Option.map_some,
            Option.getD_some, hvalue]
          congr 1
          by_cases hn : ev .reason = n
          · rw [if_pos (beq_iff_eq.mpr (congrArg intText hn)), if_pos (decide_eq_true hn)]
          · rw [if_neg fun heq => hn (intText_injective (beq_iff_eq.mp heq)),
              if_neg fun heq => hn (of_decide_eq_true heq)]

theorem count_syscallKey (events : List Event) (n : Int) :
    events.countP (fun ev => decide (ev .reason = n)) =
      (events.filterMap syscallKey).count n +
        events.countP fun ev => decide (ev .reason = n) && !isSyscallEntry ev := by
  induction events with
  | nil => rfl
  | cons ev events ih =>
      rw [List.countP_cons, List.countP_cons, ih]
      cases hentry : isSyscallEntry ev with
      | true =>
          have hkey : syscallKey ev = some (ev .reason) := if_pos hentry
          rw [List.filterMap_cons_some hkey, List.count_cons, Bool.not_true, Bool.and_false,
            if_neg Bool.false_ne_true]
          by_cases hn : ev .reason = n
          · rw [if_pos (decide_eq_true hn), if_pos (beq_iff_eq.mpr hn)]
            omega
          · rw [if_neg fun heq => hn (of_decide_eq_true heq),
              if_neg fun heq => hn (beq_iff_eq.mp heq)]
            omega
      | false =>
          have hkey : syscallKey ev = none := if_neg (by rw [hentry]; exact Bool.false_ne_true)
          rw [List.filterMap_cons_none hkey, Bool.not_false, Bool.and_true]
          omega

/-! The script on a directory whose name means nothing to the shell and to `awk`. -/

def PlainName (dir : Text) : Prop :=
  ∀ c ∈ dir, (isIfs c || isWildcard c || c == '=') = false

instance (dir : Text) : Decidable (PlainName dir) :=
  inferInstanceAs (Decidable (∀ c ∈ dir, _))

theorem PlainName.append {first second : Text} (hfirst : PlainName first)
    (hsecond : PlainName second) : PlainName (first ++ second) := by
  intro c hc
  rcases List.mem_append.mp hc with hc | hc
  · exact hfirst c hc
  · exact hsecond c hc

theorem PlainName.words {name : Text} (plain : PlainName name) (hne : name ≠ [])
    (env : Environment) : env.words name = [name] ∧ isAssignment name = false := by
  have hchar : ∀ c ∈ name, isIfs c = false ∧ isWildcard c = false ∧ (c == '=') = false := by
    intro c hc
    have hplain := plain c hc
    rw [Bool.or_eq_false_iff, Bool.or_eq_false_iff] at hplain
    exact ⟨hplain.1.1, hplain.1.2, hplain.2⟩
  have hsplit : splitFields isIfs [] name = [name] := by
    have htext := splitFields_text [] name (fun c hc => (hchar c hc).1) []
    rw [List.append_nil, List.nil_append, splitFields, if_neg hne] at htext
    exact htext
  have hexpand : env.expandWord name = [name] := by
    rw [Environment.expandWord, if_neg]
    rw [List.any_eq_true]
    rintro ⟨c, hc, hwildcard⟩
    exact absurd ((hchar c hc).2.1.symm.trans hwildcard) Bool.false_ne_true
  refine ⟨?_, ?_⟩
  · rw [Environment.words, hsplit, List.flatMap_singleton, hexpand]
  · rw [isAssignment, List.any_eq_false.mpr fun c hc => ?_, Bool.false_and]
    rw [(hchar c hc).2.2]
    exact Bool.false_ne_true

theorem main_of_plainName {env : Environment} {dir text : Text} (plain : PlainName dir)
    (hfile : env.file (dir ++ "/trace_0".toList) = some text) (n : Int) :
    main env [dir, intText n] =
      .printed (Nat.toDigits 10 ((printFourth text).count (intText n)) ++ ['\n']) := by
  have htrace : PlainName "/trace_0".toList := by
    simp [PlainName, isIfs, isBlank, isWildcard]
  have hne : dir ++ "/trace_0".toList ≠ [] :=
    List.append_ne_nil_of_right_ne_nil _ (by decide)
  have hstdin : dir ++ "/trace_0".toList ≠ ['-'] := by
    intro heq
    have hlength := congrArg List.length heq
    simp at hlength
  obtain ⟨hwords, hassignment⟩ := (plain.append htrace).words hne env
  have hawk : env.awk [dir ++ "/trace_0".toList] = printFourth text := by
    rw [Environment.awk, if_neg (List.cons_ne_nil _ _),
      List.filterMap_cons_some (b := text) (by rw [if_neg hstdin, hfile]),
      List.filterMap_nil, List.flatMap_singleton]
  have hcount : ∀ printed, env.countMatching (intText n) printed =
      printed.count (intText n) := by
    intro printed
    rw [Environment.countMatching, if_neg]
    rw [List.any_eq_true]
    rintro ⟨c, hc, hspecial⟩
    exact absurd ((plain_of_mem_intText n c hc).2.2.symm.trans hspecial) Bool.false_ne_true
  simp only [main, hfile, hwords, List.any_cons, List.any_nil, hassignment, Bool.or_self,
    hawk, hcount]
  rfl

/-- Of a trace as it is written `histogram-trace` reads the events that its numbers say,
however they are aligned, and `count-syscalls` prints how many of them have the given
reason: those that the histogram has, which are entries, and the others. -/
theorem main_exceeds_histogram (trace : List (List Entry)) (n : Int) (env : Environment)
    {dir : Text} (plain : PlainName dir)
    (hfile : env.file (dir ++ "/trace_0".toList) = some (render trace)) :
    iterevents (render trace) = trace.filterMap eventOf ∧
      ∃ hist, accumSyscallHistogram (render trace) ∅ = .ok hist ∧
        main env [dir, intText n] =
          .printed (Nat.toDigits 10 (hist.get n + (trace.filterMap eventOf).countP fun ev =>
            decide (ev .reason = n) && !isSyscallEntry ev) ++ ['\n']) := by
  have hevents := iterevents_render trace
  refine ⟨hevents, histogramOf ((trace.filterMap eventOf).filterMap syscallKey), ?_, ?_⟩
  · rw [accumSyscallHistogram, accumSelected_eq, hevents]
    rfl
  · rw [main_of_plainName plain hfile, count_printFourth, count_syscallKey, get_histogramOf]

def spaced (value : Int) : Entry where
  blanks := [' ']
  value := value
  nonempty := List.cons_ne_nil _ _
  blank _ hc := List.mem_singleton.mp hc ▸ rfl

def readTrace : List (List Entry) :=
  [[1, 1, 5, 3, 0, 0, 0, 0, 0, 3, 0, 0, 0, 0, 0, 0, 3].map spaced,
    [2, 2, 5, 3, 1, 0, 0, 0, 0, 10, 0, 0, 0, 0, 0, 0, 3].map spaced]

def readEnvironment : Environment where
  basename := "count-syscalls".toList
  stdin := []
  file name := if name = "dir/trace_0".toList then some (render readTrace) else none
  matching _ := []
  grep _ _ := false

theorem main_exceeds_histogram_readTrace :
    ∃ hist, accumSyscallHistogram (render readTrace) ∅ = .ok hist ∧
      main readEnvironment ["dir".toList, intText 3] =
        .printed (Nat.toDigits 10 (hist.get 3 + 1) ++ ['\n']) :=
  (main_exceeds_histogram readTrace 3 readEnvironment
    (show PlainName "dir".toList by simp [PlainName, isIfs, isBlank, isWildcard]) rfl).2

example : main readEnvironment ["dir".toList, "3".toList] = .printed "2\n".toList := by
  decide +kernel

end RrWorkbench.CountSyscalls
