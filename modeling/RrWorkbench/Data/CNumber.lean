import Mathlib.Algebra.Group.Nat.Defs
import Mathlib.Data.Nat.Basic

namespace RrWorkbench.Data

/-! Numbers as C programs print and read them: `printf` with `%d`, `%lo` and `%lx`, and
`strtoul` with base 0. -/

/-- The value of a digit in the largest base in which it is one. -/
def digitValue (c : Char) : Option Nat :=
  if c.isDigit then some (c.toNat - '0'.toNat)
  else if c.isLower then some (c.toNat - 'a'.toNat + 10)
  else if c.isUpper then some (c.toNat - 'A'.toNat + 10)
  else none

def digitIn (base : Nat) (c : Char) : Option Nat :=
  (digitValue c).filter (· < base)

def scanNumber (base : Nat) : Nat → List Char → Nat
  | value, [] => value
  | value, c :: rest =>
      match digitIn base c with
      | some digit => scanNumber base (base * value + digit) rest
      | none => value

def isCSpace (c : Char) : Bool := decide (c.toNat ∈ [9, 10, 11, 12, 13, 32])

def scanSign : List Char → Bool × List Char
  | '-' :: rest => (true, rest)
  | '+' :: rest => (false, rest)
  | text => (false, text)

def scanBase : List Char → Nat × List Char
  | '0' :: 'x' :: rest => (16, rest)
  | '0' :: 'X' :: rest => (16, rest)
  | '0' :: rest => (8, rest)
  | text => (10, text)

/-- `strtoul(text, NULL, 0)` for an `unsigned long` of `width` bits: too large a value is
`ULONG_MAX`, and one behind a minus sign is negated. -/
def strtoul (width : Nat) (text : List Char) : Nat :=
  let (negative, text) := scanSign (text.dropWhile isCSpace)
  let (base, text) := scanBase text
  let value := scanNumber base 0 text
  if 2 ^ width ≤ value then 2 ^ width - 1
  else if negative then (2 ^ width - value) % 2 ^ width
  else value

/-- The ways to write a number: `%lu`, `0%lo` and `0x%lx`. -/
inductive NumberForm
  | decimal
  | octal
  | hexadecimal
  deriving DecidableEq, Repr

def NumberForm.write (n : Nat) : NumberForm → List Char
  | .decimal => Nat.toDigits 10 n
  | .octal => '0' :: Nat.toDigits 8 n
  | .hexadecimal => '0' :: 'x' :: Nat.toDigits 16 n

theorem digitIn_digitChar {base digit : Nat} (hbase : base ≤ 16) (hdigit : digit < base) :
    digitIn base digit.digitChar = some digit := by
  have hvalue : ∀ d < 16, digitValue d.digitChar = some d := by decide
  rw [digitIn, hvalue digit (by omega)]
  simp [hdigit]

section Scan

variable {base : Nat} (hbase : 1 < base) (hle : base ≤ 16)

include hbase hle

theorem scanNumber_toDigits (n : Nat) (rest : List Char) :
    scanNumber base 0 (Nat.toDigits base n ++ rest) = scanNumber base n rest := by
  induction n using Nat.strongRecOn generalizing rest with
  | ind n ih =>
      by_cases hn : n < base
      · rw [Nat.toDigits_of_lt_base hn, List.singleton_append, scanNumber,
          digitIn_digitChar hle hn]
        simp
      · have hpositive : 0 < base := by omega
        have hmod : n % base < base := Nat.mod_lt n hpositive
        rw [Nat.toDigits_of_base_le hbase (Nat.le_of_not_lt hn), List.append_assoc,
          ih (n / base) (Nat.div_lt_self (by omega) hbase), List.singleton_append, scanNumber,
          digitIn_digitChar hle hmod]
        simp only [Nat.div_add_mod]

theorem scanNumber_toDigits_stop (n : Nat) {rest : List Char}
    (hrest : ∀ c ∈ rest.head?, digitIn base c = none) :
    scanNumber base 0 (Nat.toDigits base n ++ rest) = n := by
  rw [scanNumber_toDigits hbase hle]
  cases rest with
  | nil => rfl
  | cons c rest => rw [scanNumber, hrest c rfl]

theorem scanNumber_toDigits_all (n : Nat) :
    scanNumber base 0 (Nat.toDigits base n) = n := by
  have hscan := scanNumber_toDigits hbase hle n []
  rwa [List.append_nil] at hscan

/-- Behind equal texts that begin with a number stand equal numbers and equal rests. -/
theorem toDigits_append_inj {n m : Nat} {rest rest' : List Char}
    (hrest : ∀ c ∈ rest.head?, digitIn base c = none)
    (hrest' : ∀ c ∈ rest'.head?, digitIn base c = none)
    (h : Nat.toDigits base n ++ rest = Nat.toDigits base m ++ rest') :
    n = m ∧ rest = rest' := by
  have hn : n = m := by
    rw [← scanNumber_toDigits_stop hbase hle n hrest, h,
      scanNumber_toDigits_stop hbase hle m hrest']
  subst hn
  exact ⟨rfl, List.append_cancel_left h⟩

end Scan

theorem exists_toDigits_eq_cons {base : Nat} (hbase : 1 < base) (n : Nat) :
    ∃ digit rest, Nat.toDigits base n = Nat.digitChar digit :: rest ∧ digit < base ∧
      (digit = 0 → n = 0) := by
  induction n using Nat.strongRecOn with
  | ind n ih =>
      by_cases hn : n < base
      · exact ⟨n, [], Nat.toDigits_of_lt_base hn, hn, id⟩
      · have hdiv : 0 < n / base := Nat.div_pos (Nat.le_of_not_lt hn) (by omega)
        obtain ⟨digit, rest, hrest, hdigit, hzero⟩ :=
          ih (n / base) (Nat.div_lt_self (by omega) hbase)
        refine ⟨digit, rest ++ [Nat.digitChar (n % base)], ?_, hdigit, ?_⟩
        · rw [Nat.toDigits_of_base_le hbase (Nat.le_of_not_lt hn), hrest, List.cons_append]
        · intro h
          have hquotient := hzero h
          omega

/-- A digit is no space and no sign, and only the digit 0 looks like the begin of a
base. -/
theorem scan_digitChar {digit : Nat} (hdigit : digit < 10) (rest : List Char) :
    scanSign ((digit.digitChar :: rest).dropWhile isCSpace) =
        (false, digit.digitChar :: rest) ∧
      (digit ≠ 0 → scanBase (digit.digitChar :: rest) = (10, digit.digitChar :: rest)) := by
  have hcases : digit = 0 ∨ digit = 1 ∨ digit = 2 ∨ digit = 3 ∨ digit = 4 ∨ digit = 5 ∨
      digit = 6 ∨ digit = 7 ∨ digit = 8 ∨ digit = 9 := by omega
  rcases hcases with rfl | rfl | rfl | rfl | rfl | rfl | rfl | rfl | rfl | rfl <;>
    exact ⟨rfl, fun h => by first | contradiction | rfl⟩

theorem strtoul_eq {width n base : Nat} {text unsigned digits : List Char}
    (hsign : scanSign (text.dropWhile isCSpace) = (false, unsigned))
    (hbase : scanBase unsigned = (base, digits)) (hscan : scanNumber base 0 digits = n)
    (hn : n < 2 ^ width) : strtoul width text = n := by
  simp only [strtoul, hsign, hbase, hscan]
  rw [if_neg (Nat.not_le_of_lt hn), if_neg Bool.false_ne_true]

/-- A number that is written out is read back, in each form. -/
theorem strtoul_write {width n : Nat} (hn : n < 2 ^ width) (form : NumberForm) :
    strtoul width (form.write n) = n := by
  cases form with
  | decimal =>
      obtain ⟨digit, rest, hdigits, hdigit, hzero⟩ :=
        exists_toDigits_eq_cons (show 1 < 10 by decide) n
      obtain ⟨hsign, hbase⟩ := scan_digitChar hdigit rest
      have hscan := scanNumber_toDigits_all (show 1 < 10 by decide) (by decide) n
      rw [NumberForm.write, hdigits]
      by_cases hdigit0 : digit = 0
      · -- the text is "0", which is read in base 8
        obtain rfl := hzero hdigit0
        subst hdigit0
        have hrest : rest = [] := by
          rw [Nat.toDigits_of_lt_base (by decide)] at hdigits
          exact (List.cons.inj hdigits).2.symm
        subst hrest
        exact strtoul_eq hsign rfl rfl hn
      · rw [hdigits] at hscan
        exact strtoul_eq hsign (hbase hdigit0) hscan hn
  | octal =>
      obtain ⟨digit, rest, hdigits, hdigit, _⟩ :=
        exists_toDigits_eq_cons (show 1 < 8 by decide) n
      have hbase : scanBase ('0' :: Nat.toDigits 8 n) = (8, Nat.toDigits 8 n) := by
        rw [hdigits]
        have hcases : digit = 0 ∨ digit = 1 ∨ digit = 2 ∨ digit = 3 ∨ digit = 4 ∨
            digit = 5 ∨ digit = 6 ∨ digit = 7 := by omega
        rcases hcases with rfl | rfl | rfl | rfl | rfl | rfl | rfl | rfl <;> rfl
      apply strtoul_eq rfl hbase _ hn
      exact scanNumber_toDigits_all (by decide) (by decide) n
  | hexadecimal =>
      have hbase : scanBase ('0' :: 'x' :: Nat.toDigits 16 n) = (16, Nat.toDigits 16 n) := rfl
      apply strtoul_eq rfl hbase _ hn
      exact scanNumber_toDigits_all (by decide) (by decide) n

end RrWorkbench.Data
