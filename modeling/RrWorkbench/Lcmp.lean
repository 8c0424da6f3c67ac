import Mathlib.Data.List.TakeWhile
import RrWorkbench.Data.LineInput

namespace RrWorkbench.Lcmp

open RrWorkbench.Data

/-! `lcmp.c`: a comparison of two files line by line, through two buffers of
`MAX_LINE_LEN` bytes. -/

abbrev Bytes : Type := List UInt8

def ascii (text : String) : Bytes := text.toUTF8.data.toList

theorem ascii_minus : ascii "-" = [45] := rfl

theorem ascii_plus : ascii "+" = [43] := rfl

def maxLineLen : Nat := 4096

theorem one_lt_maxLineLen : 1 < maxLineLen := by decide

def isNewline (b : UInt8) : Bool := b == 10

def cString (buf : Bytes) : Bytes := buf.takeWhile (· != 0)

def report : Option Bytes → Option Bytes → Bytes
  | none, none => []
  | none, some s2 => ascii "+" ++ cString s2
  | some s1, none => ascii "-" ++ cString s1
  | some s1, some s2 =>
      -- strcmp(s1, s2)
      if cString s1 = cString s2 then []
      else ascii "-" ++ cString s1 ++ (ascii "+" ++ cString s2)

/-- The `while` loop, if it ends within `fuel` evaluations of its condition. -/
def compareLoop : Nat → InputStream UInt8 → InputStream UInt8 → Option Bytes
  | 0, _, _ => none
  | fuel + 1, f1, f2 =>
      if f1.eof && f2.eof then some []
      else
        let (s1, f1) := f1.fgets isNewline maxLineLen
        let (s2, f2) := f2.fgets isNewline maxLineLen
        (compareLoop fuel f1 f2).map (report s1 s2 ++ ·)

structure Outcome where
  stdout : Bytes
  stderr : Bytes
  status : Nat
  deriving DecidableEq, Repr

structure Environment where
  fopen : Bytes → Except Nat (InputStream UInt8)
  strerror : Nat → Bytes

def usage (exe : Bytes) : Bytes :=
  ascii "Usage: " ++ exe ++ ascii " <file1> <file2>\n"

def fatal (env : Environment) (errno : Nat) (path : Bytes) : Outcome :=
  { stdout := []
    stderr := ascii "Fatal error: " ++ env.strerror errno ++ ascii " (" ++
      ascii (toString errno) ++ ascii "): fopen(" ++ path ++ ascii ")\n"
    status := 1 }

def header (exe path1 path2 : Bytes) : Bytes :=
  exe ++ ascii " " ++ path1 ++ ascii " " ++ path2 ++ ascii "\n" ++
    (ascii "--- " ++ path1 ++ ascii "\n") ++ (ascii "+++ " ++ path2 ++ ascii "\n")

def main (env : Environment) (fuel : Nat) : List Bytes → Option Outcome
  | [exe, path1, path2] =>
      match env.fopen path1 with
      | .error errno => some (fatal env errno path1)
      | .ok f1 =>
          match env.fopen path2 with
          | .error errno => some (fatal env errno path2)
          | .ok f2 =>
              (compareLoop fuel f1 f2).map fun differences =>
                { stdout := header exe path1 path2 ++ differences
                  stderr := []
                  status := 0 }
  | argv => some { stdout := [], stderr := usage (argv.headD []), status := 1 }

/-! The comparison of two lists of lines that the program is for. -/

def lineDifference (line1 line2 : Option Bytes) : Bytes :=
  if line1 = line2 then []
  else line1.elim [] (ascii "-" ++ ·) ++ line2.elim [] (ascii "+" ++ ·)

/-- What `compare` says of the first lines of two texts, then of the second ones, up
to the last line of the longer text. -/
def byPosition (compare : Option Bytes → Option Bytes → Bytes)
    (lines1 lines2 : List Bytes) : Bytes :=
  (List.range (max lines1.length lines2.length)).flatMap fun i =>
    compare lines1[i]? lines2[i]?

theorem byPosition_step {compare : Option Bytes → Option Bytes → Bytes}
    (silent : compare none none = []) (lines1 lines2 : List Bytes) :
    byPosition compare lines1 lines2 =
      compare lines1.head? lines2.head? ++ byPosition compare lines1.tail lines2.tail := by
  cases lines1 with
  | nil =>
      cases lines2 with
      | nil => simp [byPosition, silent]
      | cons line2 lines2 =>
          simp [byPosition, List.range_succ_eq_map, List.flatMap_map]
  | cons line1 lines1 =>
      cases lines2 with
      | nil => simp [byPosition, List.range_succ_eq_map, List.flatMap_map]
      | cons line2 lines2 =>
          simp [byPosition, Nat.succ_max_succ, List.range_succ_eq_map, List.flatMap_map]

theorem lineDifference_eq_nil {line1 line2 : Option Bytes} :
    lineDifference line1 line2 = [] ↔ line1 = line2 := by
  constructor
  · intro hnil
    simp only [lineDifference] at hnil
    split at hnil
    · assumption
    · cases line1 <;> cases line2 <;> simp_all [ascii_minus, ascii_plus]
  · intro heq
    simp [lineDifference, heq]

theorem byPosition_lineDifference_eq_nil {lines1 lines2 : List Bytes} :
    byPosition lineDifference lines1 lines2 = [] ↔ lines1 = lines2 := by
  constructor
  · intro hnil
    apply List.ext_getElem?
    intro i
    rcases Nat.lt_or_ge i (max lines1.length lines2.length) with hlt | hge
    · exact lineDifference_eq_nil.mp
        (List.flatMap_eq_nil_iff.mp hnil i (List.mem_range.mpr hlt))
    · rw [List.getElem?_eq_none (by omega), List.getElem?_eq_none (by omega)]
  · rintro rfl
    simp [byPosition, lineDifference]

def IsText (contents : Bytes) : Prop := 0 ∉ contents

instance : DecidablePred IsText :=
  fun contents => inferInstanceAs (Decidable (0 ∉ contents))

theorem cString_of_isText {line : Bytes} (text : IsText line) : cString line = line := by
  apply List.takeWhile_eq_self_iff.mpr
  intro b hb
  simp only [bne_iff_ne, ne_eq]
  rintro rfl
  exact text hb

theorem report_eq_lineDifference {s1 s2 : Option Bytes}
    (text1 : ∀ line ∈ s1, IsText line) (text2 : ∀ line ∈ s2, IsText line) :
    report s1 s2 = lineDifference s1 s2 := by
  cases s1 with
  | none =>
      cases s2 with
      | none => rfl
      | some line2 =>
          simp [report, lineDifference, cString_of_isText (text2 line2 rfl)]
  | some line1 =>
      cases s2 with
      | none => simp [report, lineDifference, cString_of_isText (text1 line1 rfl)]
      | some line2 =>
          simp [report, lineDifference, cString_of_isText (text1 line1 rfl),
            cString_of_isText (text2 line2 rfl)]

abbrev filePieces (contents : Bytes) : List Bytes :=
  pieces isNewline (maxLineLen - 1) contents

theorem isText_of_mem_filePieces {contents line : Bytes} (text : IsText contents)
    (hline : line ∈ filePieces contents) : IsText line := by
  intro hzero
  have hflatten : (filePieces contents).flatten = contents :=
    flatten_piecesFrom (maxLineLen - 1) (maxLineLen - 1) contents
  exact text (hflatten ▸ List.mem_flatten.mpr ⟨line, hline, hzero⟩)

theorem byPosition_report {contents1 contents2 : Bytes} (text1 : IsText contents1)
    (text2 : IsText contents2) :
    byPosition report (filePieces contents1) (filePieces contents2) =
      byPosition lineDifference (filePieces contents1) (filePieces contents2) := by
  apply List.flatMap_congr
  intro i _
  apply report_eq_lineDifference
  · intro line hline
    exact isText_of_mem_filePieces text1 (List.mem_of_getElem? hline)
  · intro line hline
    exact isText_of_mem_filePieces text2 (List.mem_of_getElem? hline)

/-! The loop.  On streams that end, every iteration takes the next piece of each file;
a stream that fails never sets its end-of-file indicator. -/

theorem compareLoop_of_ends {f1 f2 : InputStream UInt8} (ends1 : f1.Ends)
    (ends2 : f2.Ends) :
    ∀ fuel, f1.remaining + f2.remaining < fuel →
      compareLoop fuel f1 f2 =
        some (byPosition report (filePieces f1.rest) (filePieces f2.rest)) := by
  intro fuel hfuel
  induction fuel generalizing f1 f2 with
  | zero => exact absurd hfuel (Nat.not_lt_zero _)
  | succ fuel ih =>
      simp only [compareLoop]
      split
      case isTrue hboth =>
        simp only [Bool.and_eq_true] at hboth
        rw [ends1.rest hboth.1, ends2.rest hboth.2]
        rfl
      case isFalse hneither =>
        have hpositive : 0 < f1.remaining + f2.remaining := by
          simp only [Bool.and_eq_true, not_and_or, Bool.not_eq_true] at hneither
          rcases hneither with heof | heof <;>
            simp only [InputStream.remaining, heof, Bool.false_eq_true, if_false] <;>
            omega
        have hremaining1 : (f1.fgets isNewline maxLineLen).2.remaining ≤ _ :=
          ends1.remaining_fgets one_lt_maxLineLen
        have hremaining2 : (f2.fgets isNewline maxLineLen).2.remaining ≤ _ :=
          ends2.remaining_fgets one_lt_maxLineLen
        obtain ⟨hline1, hrest1⟩ := ends1.pieces_fgets one_lt_maxLineLen
        obtain ⟨hline2, hrest2⟩ := ends2.pieces_fgets one_lt_maxLineLen
        rw [ih (ends1.fgets one_lt_maxLineLen) (ends2.fgets one_lt_maxLineLen) (by omega),
          hline1, hline2, filePieces, hrest1, filePieces, hrest2,
          byPosition_step rfl (filePieces f1.rest) (filePieces f2.rest)]
        rfl

theorem compareLoop_of_fails {f1 f2 : InputStream UInt8} (fails : f1.Fails ∨ f2.Fails)
    (fuel : Nat) : compareLoop fuel f1 f2 = none := by
  induction fuel generalizing f1 f2 with
  | zero => rfl
  | succ fuel ih =>
      have hneither : (f1.eof && f2.eof) = false := by
        rcases fails with fails | fails <;> simp [fails.eof]
      simp only [compareLoop, hneither, Bool.false_eq_true, if_false]
      rw [ih (fails.imp InputStream.Fails.fgets InputStream.Fails.fgets)]
      rfl

def longLine : Bytes := List.replicate maxLineLen 97

theorem isNewline_of_mem_replicate (n : Nat) :
    ∀ b ∈ List.replicate n (97 : UInt8), isNewline b = false := by
  intro b hb
  rw [List.eq_of_mem_replicate hb]
  rfl

theorem lines_longLine : lines isNewline longLine = [longLine] :=
  lines_of_unbroken longLine (List.cons_ne_nil _ _) (isNewline_of_mem_replicate maxLineLen)

theorem filePieces_longLine :
    filePieces longLine = [List.replicate (maxLineLen - 1) 97, [97]] := by
  have happend : longLine = List.replicate (maxLineLen - 1) 97 ++ [97] :=
    List.replicate_succ'
  have hpieces := piecesFrom_append (maxLineLen - 1) (List.replicate (maxLineLen - 1) 97)
    [97] (List.cons_ne_nil _ _) (isNewline_of_mem_replicate (maxLineLen - 1))
  rw [List.length_replicate] at hpieces
  rw [happend, filePieces, pieces, hpieces]
  rfl

def sampleFiles : Environment :=
  { fopen := fun path =>
      if path = ascii "old" then .ok (.opened (ascii "one\ntwo\n") .endOfFile)
      else if path = ascii "new" then .ok (.opened (ascii "one\nsix") .endOfFile)
      else if path = ascii "long" then .ok (.opened longLine .endOfFile)
      else if path = ascii "empty" then .ok (.opened [] .endOfFile)
      else if path = ascii "directory" then .ok (.opened [] .readError)
      else .error 2
    strerror := fun _ => ascii "No such file or directory" }

/-! The program on two paths that `fopen` opens. -/

section Main

variable (env : Environment) (exe path1 path2 contents1 contents2 : Bytes)

def printed (differences : Bytes) : Outcome :=
  { stdout := header exe path1 path2 ++ differences, stderr := [], status := 0 }

variable {env exe path1 path2 contents1 contents2}

theorem main_of_open {f1 f2 : InputStream UInt8} (open1 : env.fopen path1 = .ok f1)
    (open2 : env.fopen path2 = .ok f2) (fuel : Nat) :
    main env fuel [exe, path1, path2] =
      (compareLoop fuel f1 f2).map (printed exe path1 path2) := by
  simp only [main, open1, open2]
  rfl

theorem main_of_ends (exe : Bytes)
    (open1 : env.fopen path1 = .ok (.opened contents1 .endOfFile))
    (open2 : env.fopen path2 = .ok (.opened contents2 .endOfFile)) :
    ∃ enough, ∀ fuel, enough ≤ fuel →
      main env fuel [exe, path1, path2] = some (printed exe path1 path2
        (byPosition report (filePieces contents1) (filePieces contents2))) := by
  refine ⟨(InputStream.opened contents1 .endOfFile).remaining +
    (InputStream.opened contents2 .endOfFile).remaining + 1, fun fuel hfuel => ?_⟩
  rw [main_of_open open1 open2, compareLoop_of_ends (InputStream.ends_opened contents1)
    (InputStream.ends_opened contents2) fuel (Nat.lt_of_succ_le hfuel)]
  rfl

variable (env exe path1 path2 contents1 contents2)

/-- The program compares the files piece by piece.  Lines of less than `MAX_LINE_LEN`
bytes, the newline included, are pieces; a longer line is cut. -/
theorem main_compares_pieces
    (open1 : env.fopen path1 = .ok (.opened contents1 .endOfFile))
    (open2 : env.fopen path2 = .ok (.opened contents2 .endOfFile))
    (text1 : IsText contents1) (text2 : IsText contents2) :
    (∃ enough, ∀ fuel, enough ≤ fuel →
      main env fuel [exe, path1, path2] = some (printed exe path1 path2
        (byPosition lineDifference (filePieces contents1) (filePieces contents2)))) ∧
    ∀ contents : Bytes,
      (∀ line ∈ lines isNewline contents, line.length < maxLineLen) →
        filePieces contents = lines isNewline contents := by
  constructor
  · rw [← byPosition_report text1 text2]
    exact main_of_ends exe open1 open2
  · intro contents short
    exact pieces_eq_lines fun line hline => Nat.le_sub_one_of_lt (short line hline)

theorem main_compares_pieces_twoLines :
    ∃ fuel, main sampleFiles fuel [ascii "lcmp", ascii "old", ascii "new"] =
      some (printed (ascii "lcmp") (ascii "old") (ascii "new")
        (ascii "-two\n+six")) := by
  obtain ⟨⟨enough, hmain⟩, hlines⟩ := main_compares_pieces sampleFiles (ascii "lcmp")
    (ascii "old") (ascii "new") (ascii "one\ntwo\n") (ascii "one\nsix") rfl rfl
    (by decide) (by decide)
  refine ⟨enough, ?_⟩
  rw [hmain enough (Nat.le_refl enough), hlines _ (by decide), hlines _ (by decide)]
  decide

/-- A line of `MAX_LINE_LEN` bytes is reported as two lines. -/
theorem main_cuts_longLine :
    ∃ fuel differences,
      main sampleFiles fuel [ascii "lcmp", ascii "long", ascii "empty"] =
        some (printed (ascii "lcmp") (ascii "long") (ascii "empty") differences) ∧
      differences ≠ byPosition lineDifference (lines isNewline longLine)
        (lines isNewline []) := by
  obtain ⟨enough, hmain⟩ := main_of_ends (ascii "lcmp")
    (show sampleFiles.fopen (ascii "long") = .ok (.opened longLine .endOfFile) from rfl)
    (show sampleFiles.fopen (ascii "empty") = .ok (.opened [] .endOfFile) from rfl)
  refine ⟨enough, _, hmain enough (Nat.le_refl enough), ?_⟩
  have htwo : ∀ first second : Bytes, byPosition lineDifference [first, second] [] =
      ascii "-" ++ first ++ (ascii "-" ++ second) := by
    intro first second
    simp [byPosition, lineDifference, List.range_succ]
  have hone : ∀ only : Bytes, byPosition lineDifference [only] [] = ascii "-" ++ only := by
    intro only
    simp [byPosition, lineDifference]
  have hlong : IsText longLine := fun hzero => nomatch List.eq_of_mem_replicate hzero
  rw [byPosition_report hlong (by decide), filePieces_longLine, lines_longLine]
  intro heq
  have hlength := congrArg List.length ((htwo _ _).symm.trans (heq.trans (hone _)))
  simp only [List.length_append, ascii_minus, longLine, List.length_replicate,
    List.length_cons, List.length_nil, maxLineLen] at hlength
  omega

theorem main_verdict_is_exact
    (open1 : env.fopen path1 = .ok (.opened contents1 .endOfFile))
    (open2 : env.fopen path2 = .ok (.opened contents2 .endOfFile))
    (text1 : IsText contents1) (text2 : IsText contents2) :
    ∃ differences enough,
      (∀ fuel, enough ≤ fuel →
        main env fuel [exe, path1, path2] = some (printed exe path1 path2 differences)) ∧
      (differences = [] ↔ contents1 = contents2) := by
  obtain ⟨enough, hmain⟩ := main_of_ends exe open1 open2
  refine ⟨_, enough, hmain, ?_⟩
  rw [byPosition_report text1 text2, byPosition_lineDifference_eq_nil]
  exact (pieces_injective _).eq_iff

theorem main_verdict_is_exact_twoLines :
    ∃ differences enough,
      (∀ fuel, enough ≤ fuel →
        main sampleFiles fuel [ascii "lcmp", ascii "old", ascii "new"] =
          some (printed (ascii "lcmp") (ascii "old") (ascii "new") differences)) ∧
      differences ≠ [] := by
  obtain ⟨differences, enough, hmain, hverdict⟩ := main_verdict_is_exact sampleFiles
    (ascii "lcmp") (ascii "old") (ascii "new") (ascii "one\ntwo\n") (ascii "one\nsix")
    rfl rfl (by decide) (by decide)
  exact ⟨differences, enough, hmain, fun hnil => absurd (hverdict.mp hnil) (by decide)⟩

/-- The program ends exactly if both streams come to an end of file. -/
theorem main_ends_iff {ending1 ending2 : Ending}
    (open1 : env.fopen path1 = .ok (.opened contents1 ending1))
    (open2 : env.fopen path2 = .ok (.opened contents2 ending2)) :
    (∃ fuel, (main env fuel [exe, path1, path2]).isSome = true) ↔
      ending1 = .endOfFile ∧ ending2 = .endOfFile := by
  constructor
  · rintro ⟨fuel, hends⟩
    rw [main_of_open open1 open2] at hends
    by_contra hnot
    have fails : (InputStream.opened contents1 ending1).Fails ∨
        (InputStream.opened contents2 ending2).Fails := by
      cases ending1 with
      | readError => exact .inl (InputStream.fails_opened contents1)
      | endOfFile =>
          cases ending2 with
          | readError => exact .inr (InputStream.fails_opened contents2)
          | endOfFile => exact absurd ⟨rfl, rfl⟩ hnot
    rw [compareLoop_of_fails fails] at hends
    cases hends
  · rintro ⟨rfl, rfl⟩
    obtain ⟨enough, hmain⟩ := main_of_ends exe open1 open2
    exact ⟨enough, by rw [hmain enough (Nat.le_refl enough)]; rfl⟩

theorem main_ends_iff_twoLines :
    ∃ fuel, (main sampleFiles fuel [ascii "lcmp", ascii "old", ascii "new"]).isSome = true :=
  (main_ends_iff sampleFiles (ascii "lcmp") (ascii "old") (ascii "new")
    (ascii "one\ntwo\n") (ascii "one\nsix") rfl rfl).mpr ⟨rfl, rfl⟩

/-- A directory can be opened, but every read of it fails. -/
theorem main_loops_on_directory :
    sampleFiles.fopen (ascii "directory") = .ok (.opened [] .readError) ∧
    sampleFiles.fopen (ascii "empty") = .ok (.opened [] .endOfFile) ∧
    ∀ fuel, main sampleFiles fuel [ascii "lcmp", ascii "directory", ascii "empty"] =
      none := by
  have open1 : sampleFiles.fopen (ascii "directory") = .ok (.opened [] .readError) := rfl
  have open2 : sampleFiles.fopen (ascii "empty") = .ok (.opened [] .endOfFile) := rfl
  refine ⟨open1, open2, fun fuel => ?_⟩
  rw [main_of_open open1 open2, compareLoop_of_fails (.inl (InputStream.fails_opened []))]
  rfl

end Main

end RrWorkbench.Lcmp
