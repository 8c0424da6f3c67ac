import Mathlib.Data.List.Basic

namespace RrWorkbench.Data

/-! Line input in the manner of C's `fgets`: a text is read line by line through a
buffer that takes a limited number of elements. -/

section Lines

variable {α : Type u}

def consHead (a : α) : List (List α) → List (List α)
  | [] => [[a]]
  | first :: rest => (a :: first) :: rest

theorem consHead_flatten (a : α) (pieces : List (List α)) :
    (consHead a pieces).flatten = a :: pieces.flatten := by
  cases pieces <;> rfl

variable (isNewline : α → Bool)

/-- The lines of a text, each with its newline; only the last one may be without. -/
def lines : List α → List (List α)
  | [] => []
  | a :: rest =>
      if isNewline a then [a] :: lines rest else consHead a (lines rest)

/-- The lines of a text, with a cut after every `limit` elements of a line.  The
first piece takes at most `room` elements. -/
def piecesFrom (limit : Nat) : Nat → List α → List (List α)
  | _, [] => []
  | room, a :: rest =>
      if isNewline a ∨ room ≤ 1 then [a] :: piecesFrom limit limit rest
      else consHead a (piecesFrom limit (room - 1) rest)

def pieces (limit : Nat) (text : List α) : List (List α) :=
  piecesFrom isNewline limit limit text

/-- `exhausted` says that the text ended before the line or the buffer did. -/
structure Read (α : Type u) where
  line : List α
  rest : List α
  exhausted : Bool

def readLine : Nat → List α → Read α
  | 0, text => ⟨[], text, false⟩
  | _ + 1, [] => ⟨[], [], true⟩
  | room + 1, a :: rest =>
      if isNewline a then ⟨[a], rest, false⟩
      else
        let read := readLine room rest
        { read with line := a :: read.line }

variable {isNewline}

theorem flatten_piecesFrom (limit room : Nat) (text : List α) :
    (piecesFrom isNewline limit room text).flatten = text := by
  induction text generalizing room with
  | nil => rfl
  | cons a rest ih =>
      simp only [piecesFrom]
      split
      · simp [ih]
      · rw [consHead_flatten, ih]

theorem pieces_injective (limit : Nat) :
    Function.Injective (pieces isNewline limit) := by
  intro text₁ text₂ heq
  have hflatten := congrArg List.flatten heq
  simpa only [pieces, flatten_piecesFrom] using hflatten

theorem piecesFrom_append (limit : Nat) (first rest : List α) (nonempty : first ≠ [])
    (unbroken : ∀ a ∈ first, isNewline a = false) :
    piecesFrom isNewline limit first.length (first ++ rest) =
      first :: pieces isNewline limit rest := by
  induction first with
  | nil => exact absurd rfl nonempty
  | cons a first ih =>
      have ha := unbroken a List.mem_cons_self
      cases first with
      | nil => simp [piecesFrom, pieces]
      | cons b first =>
          have hrest := ih (List.cons_ne_nil b first) fun c hc =>
            unbroken c (List.mem_cons_of_mem a hc)
          simp only [List.length_cons, List.cons_append] at hrest ⊢
          rw [piecesFrom]
          simp [ha, hrest, consHead]

theorem lines_of_unbroken (text : List α) (nonempty : text ≠ [])
    (unbroken : ∀ a ∈ text, isNewline a = false) :
    lines isNewline text = [text] := by
  induction text with
  | nil => exact absurd rfl nonempty
  | cons a rest ih =>
      have ha := unbroken a List.mem_cons_self
      cases rest with
      | nil => simp [lines, ha, consHead]
      | cons b rest =>
          have hrest := ih (List.cons_ne_nil b rest) fun c hc =>
            unbroken c (List.mem_cons_of_mem a hc)
          rw [lines, hrest]
          simp [ha, consHead]

theorem lines_append (line : List α) {newline : α} (rest : List α)
    (unbroken : ∀ a ∈ line, isNewline a = false) (hnewline : isNewline newline = true) :
    lines isNewline (line ++ newline :: rest) =
      (line ++ [newline]) :: lines isNewline rest := by
  induction line with
  | nil => simp [lines, hnewline]
  | cons a line ih =>
      have ha := unbroken a List.mem_cons_self
      have hline := ih fun c hc => unbroken c (List.mem_cons_of_mem a hc)
      rw [List.cons_append, lines, hline]
      simp [ha, consHead]

theorem lines_nonempty (text : List α) : [] ∉ lines isNewline text := by
  induction text with
  | nil => exact List.not_mem_nil
  | cons a rest ih =>
      simp only [lines]
      split
      · simp [ih]
      · cases hlines : lines isNewline rest with
        | nil => simp [consHead]
        | cons first others =>
            rw [hlines] at ih
            simp_all [consHead]

theorem lines_eq_nil (text : List α) : lines isNewline text = [] ↔ text = [] := by
  cases text with
  | nil => simp [lines]
  | cons a rest =>
      simp only [lines, reduceCtorEq, iff_false]
      split
      · exact List.cons_ne_nil _ _
      · cases lines isNewline rest <;> exact List.cons_ne_nil _ _

theorem piecesFrom_eq_lines (limit : Nat) (text : List α) :
    ∀ room, (∀ line ∈ (lines isNewline text).head?, line.length ≤ room) →
      (∀ line ∈ (lines isNewline text).tail, line.length ≤ limit) →
      piecesFrom isNewline limit room text = lines isNewline text := by
  induction text with
  | nil =>
      intro room _ _
      rfl
  | cons a rest ih =>
      intro room hfirst hothers
      cases hnewline : isNewline a with
      | true =>
          simp only [lines, hnewline, if_true, List.tail_cons] at hothers
          have hrest := ih limit
            (fun line hline => hothers line (List.mem_of_mem_head? hline))
            (fun line hline => hothers line (List.mem_of_mem_tail hline))
          simp [piecesFrom, lines, hnewline, hrest]
      | false =>
          cases hlines : lines isNewline rest with
          | nil =>
              obtain rfl := (lines_eq_nil rest).mp hlines
              simp [piecesFrom, lines, hnewline, consHead]
          | cons first others =>
              have hlength : first.length + 1 ≤ room := by
                simpa [lines, hnewline, hlines, consHead] using hfirst
              have hpositive : 0 < first.length := by
                rw [List.length_pos_iff]
                rintro rfl
                have hmem : [] ∈ lines isNewline rest := by simp [hlines]
                exact lines_nonempty rest hmem
              have hrest := ih (room - 1)
                (by
                  simp only [hlines, List.head?_cons, Option.mem_some_iff, forall_eq']
                  omega)
                (by simpa [lines, hnewline, hlines, consHead] using hothers)
              have hroom : ¬ room ≤ 1 := by omega
              simp [piecesFrom, lines, hnewline, hrest, hroom]

/-- Lines that fit are not cut. -/
theorem pieces_eq_lines {limit : Nat} {text : List α}
    (fits : ∀ line ∈ lines isNewline text, line.length ≤ limit) :
    pieces isNewline limit text = lines isNewline text :=
  piecesFrom_eq_lines limit text limit
    (fun line hline => fits line (List.mem_of_mem_head? hline))
    (fun line hline => fits line (List.mem_of_mem_tail hline))

theorem readLine_nil {room : Nat} (hroom : 0 < room) :
    readLine isNewline room [] = ⟨[], [], true⟩ := by
  cases room with
  | zero => exact absurd hroom (Nat.lt_irrefl 0)
  | succ room => rfl

theorem readLine_cons {room : Nat} (hroom : 0 < room) (a : α) (rest : List α) :
    readLine isNewline room (a :: rest) =
      if isNewline a then ⟨[a], rest, false⟩
      else
        { readLine isNewline (room - 1) rest with
          line := a :: (readLine isNewline (room - 1) rest).line } := by
  cases room with
  | zero => exact absurd hroom (Nat.lt_irrefl 0)
  | succ room => rfl

theorem piecesFrom_eq_cons {room : Nat} (hroom : 0 < room) (limit : Nat) (a : α)
    (rest : List α) :
    piecesFrom isNewline limit room (a :: rest) =
      (readLine isNewline room (a :: rest)).line ::
        pieces isNewline limit (readLine isNewline room (a :: rest)).rest := by
  induction rest generalizing a room with
  | nil =>
      rw [readLine_cons hroom, piecesFrom]
      cases hnewline : isNewline a with
      | true => simp [pieces]
      | false =>
          rcases Nat.lt_or_ge 1 room with hmore | hlast
          · simp [readLine_nil (Nat.sub_pos_of_lt hmore), pieces, piecesFrom, consHead]
          · simp [Nat.sub_eq_zero_of_le hlast, hlast, readLine, pieces]
  | cons b rest ih =>
      rw [readLine_cons hroom, piecesFrom]
      cases hnewline : isNewline a with
      | true => simp [pieces]
      | false =>
          rcases Nat.lt_or_ge 1 room with hmore | hlast
          · simp [Nat.not_le_of_lt hmore, ih (Nat.sub_pos_of_lt hmore) b, consHead]
          · simp [Nat.sub_eq_zero_of_le hlast, hlast, readLine, pieces]

theorem readLine_rest_of_exhausted (room : Nat) (text : List α)
    (exhausted : (readLine isNewline room text).exhausted = true) :
    (readLine isNewline room text).rest = [] := by
  induction text generalizing room with
  | nil => cases room <;> rfl
  | cons a rest ih =>
      cases room with
      | zero => cases exhausted
      | succ room =>
          cases hnewline : isNewline a with
          | true => simp [readLine, hnewline] at exhausted
          | false =>
              simp only [readLine, hnewline, Bool.false_eq_true, if_false] at exhausted ⊢
              exact ih room exhausted

theorem readLine_rest_length (room : Nat) (text : List α) :
    (readLine isNewline room text).rest.length ≤ text.length := by
  induction text generalizing room with
  | nil => cases room <;> exact Nat.le_refl 0
  | cons a rest ih =>
      cases room with
      | zero => exact Nat.le_refl _
      | succ room =>
          have hrest := ih room
          cases hnewline : isNewline a <;>
            simp only [readLine, hnewline, Bool.false_eq_true, if_false, if_true,
              List.length_cons] <;> omega

end Lines

/-! Streams: a text that is delivered once, and the way in which it ends. -/

inductive Ending
  | endOfFile
  /-- The read fails, now and whenever it is tried again. -/
  | readError
  deriving DecidableEq, Repr

/-- `eof` and `error` are the indicators of the stream; they are set when a read
comes to the end of `rest`. -/
structure InputStream (α : Type u) where
  rest : List α
  ending : Ending
  eof : Bool
  error : Bool
  deriving DecidableEq, Repr

namespace InputStream

variable {α : Type u}

def opened (contents : List α) (ending : Ending) : InputStream α :=
  { rest := contents, ending := ending, eof := false, error := false }

/-- `fgets(buf, size, stream)`: what it leaves in `buf` before the terminator, or no
result. -/
def fgets (isNewline : α → Bool) (size : Nat) (s : InputStream α) :
    Option (List α) × InputStream α :=
  let read := readLine isNewline (size - 1) s.rest
  if read.exhausted then
    match s.ending with
    | .endOfFile =>
        (if read.line.isEmpty then none else some read.line,
          { s with rest := read.rest, eof := true })
    | .readError => (none, { s with rest := read.rest, error := true })
  else (some read.line, { s with rest := read.rest })

structure Ends (s : InputStream α) : Prop where
  ending : s.ending = .endOfFile
  rest : s.eof = true → s.rest = []

structure Fails (s : InputStream α) : Prop where
  ending : s.ending = .readError
  eof : s.eof = false

theorem ends_opened (contents : List α) : (opened contents .endOfFile).Ends :=
  ⟨rfl, nofun⟩

theorem fails_opened (contents : List α) : (opened contents .readError).Fails :=
  ⟨rfl, rfl⟩

def remaining (s : InputStream α) : Nat :=
  s.rest.length + if s.eof then 0 else 1

variable {isNewline : α → Bool} {s : InputStream α} {size : Nat}

theorem Ends.eof_eq_false (ends : s.Ends) {a : α} {rest : List α}
    (hrest : s.rest = a :: rest) : s.eof = false := by
  cases heof : s.eof with
  | false => rfl
  | true => exact nomatch hrest.symm.trans (ends.rest heof)

theorem fgets_nil (ends : s.Ends) (hrest : s.rest = []) (hsize : 1 < size) :
    s.fgets isNewline size = (none, { s with rest := [], eof := true }) := by
  simp [fgets, hrest, readLine_nil (Nat.sub_pos_of_lt hsize), ends.ending]

theorem fgets_cons (ends : s.Ends) {a : α} {rest : List α} (hrest : s.rest = a :: rest)
    (hsize : 1 < size) :
    s.fgets isNewline size =
      (some (readLine isNewline (size - 1) s.rest).line,
        { s with
          rest := (readLine isNewline (size - 1) s.rest).rest
          eof := (readLine isNewline (size - 1) s.rest).exhausted }) := by
  have hline : (readLine isNewline (size - 1) s.rest).line.isEmpty = false := by
    rw [hrest, readLine_cons (Nat.sub_pos_of_lt hsize)]
    split <;> rfl
  cases hexhausted : (readLine isNewline (size - 1) s.rest).exhausted <;>
    simp [fgets, hexhausted, ends.ending, hline, ends.eof_eq_false hrest]

theorem Ends.fgets (ends : s.Ends) (hsize : 1 < size) :
    (s.fgets isNewline size).2.Ends := by
  cases hrest : s.rest with
  | nil =>
      rw [fgets_nil ends hrest hsize]
      exact ⟨ends.ending, fun _ => rfl⟩
  | cons a rest =>
      rw [fgets_cons ends hrest hsize]
      exact ⟨ends.ending, readLine_rest_of_exhausted _ _⟩

/-- The stream delivers the pieces of its text, one after the other. -/
theorem Ends.pieces_fgets (ends : s.Ends) (hsize : 1 < size) :
    (s.fgets isNewline size).1 = (pieces isNewline (size - 1) s.rest).head? ∧
      pieces isNewline (size - 1) (s.fgets isNewline size).2.rest =
        (pieces isNewline (size - 1) s.rest).tail := by
  cases hrest : s.rest with
  | nil =>
      rw [fgets_nil ends hrest hsize]
      exact ⟨rfl, rfl⟩
  | cons a rest =>
      rw [fgets_cons ends hrest hsize, hrest]
      simp only [pieces]
      rw [piecesFrom_eq_cons (Nat.sub_pos_of_lt hsize) (size - 1) a rest]
      exact ⟨rfl, rfl⟩

theorem Ends.remaining_fgets (ends : s.Ends) (hsize : 1 < size) :
    (s.fgets isNewline size).2.remaining ≤ s.remaining - 1 := by
  cases hrest : s.rest with
  | nil =>
      rw [fgets_nil ends hrest hsize]
      exact Nat.zero_le _
  | cons a rest =>
      have hlength : (readLine isNewline (size - 1) (a :: rest)).rest.length ≤
          rest.length := by
        rw [readLine_cons (Nat.sub_pos_of_lt hsize)]
        split
        · exact Nat.le_refl _
        · exact readLine_rest_length _ rest
      have heof := ends.eof_eq_false hrest
      rw [fgets_cons ends hrest hsize]
      simp only [remaining, hrest, heof, List.length_cons, Bool.false_eq_true, if_false]
      split <;> omega

theorem Fails.fgets (fails : s.Fails) : (s.fgets isNewline size).2.Fails := by
  simp only [InputStream.fgets, fails.ending]
  split <;> exact ⟨rfl, fails.eof⟩

end InputStream

end RrWorkbench.Data
