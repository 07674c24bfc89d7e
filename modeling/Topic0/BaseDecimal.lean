import Mathlib.Tactic

/-! Decimal text of bounded signed integers: printing, and parsing with an optional sign that rejects
empty digits, foreign characters and values out of range. What is printed is parsed back. -/

namespace Decimal

/-- An integer in decimal, with a sign when it is negative. -/
def format (n : Int) : List Char :=
  if n < 0 then '-' :: Nat.toDigits 10 n.natAbs else Nat.toDigits 10 n.natAbs

/-- A nonempty string of digits. -/
def parseNat (digits : List Char) : Option Nat :=
  if digits.isEmpty then none
  else if digits.all Char.isDigit then some (Nat.ofDigitChars 10 digits 0)
  else none

/-- The digits of a value and whether it is negative. -/
def sign : List Char → Bool × List Char
  | '-' :: digits => (true, digits)
  | '+' :: digits => (false, digits)
  | digits => (false, digits)

/-- A value in decimal, with an optional sign. -/
def parseInt (text : List Char) : Option Int :=
  (parseNat (sign text).2).map fun n : Nat => if (sign text).1 then -(n : Int) else n

/-- A value of `[lo, hi]` in decimal, with an optional sign. -/
def parse (lo hi : Int) (text : List Char) : Option Int :=
  (parseNat (sign text).2).bind fun n =>
    let value : Int := if (sign text).1 then -n else n
    if lo ≤ value ∧ value ≤ hi then some value else none

theorem parseNat_toDigits (n : Nat) : parseNat (Nat.toDigits 10 n) = some n := by
  have hne : (Nat.toDigits 10 n).isEmpty = false := by
    rw [List.isEmpty_eq_false_iff]
    exact Nat.toDigits_ne_nil
  have hall : (Nat.toDigits 10 n).all Char.isDigit = true := by
    rw [List.all_eq_true]
    intro c hc
    exact Nat.isDigit_of_mem_toDigits (by decide) (by decide) hc
  rw [parseNat, hne, hall, Nat.ofDigitChars_ten_toDigits]
  rfl

/-- Digits alone carry no sign. -/
theorem sign_toDigits (n : Nat) : sign (Nat.toDigits 10 n) = (false, Nat.toDigits 10 n) := by
  have hdigit : ∀ c ∈ Nat.toDigits 10 n, c.isDigit = true := fun c hc =>
    Nat.isDigit_of_mem_toDigits (by decide) (by decide) hc
  generalize Nat.toDigits 10 n = digits at hdigit
  rw [sign.eq_def]
  split
  · exact absurd (hdigit '-' List.mem_cons_self) (by decide)
  · exact absurd (hdigit '+' List.mem_cons_self) (by decide)
  · rfl

theorem parseInt_format (n : Int) : parseInt (format n) = some n := by
  rw [parseInt, format]
  split
  · rename_i hneg
    have hvalue : -(n.natAbs : Int) = n := by omega
    simp only [sign, parseNat_toDigits, Option.map_some, if_true, hvalue]
  · rename_i hnonneg
    have hvalue : (n.natAbs : Int) = n := by omega
    simp only [sign_toDigits, parseNat_toDigits, Option.map_some, Bool.false_eq_true, if_false,
      hvalue]

theorem parse_eq_parseInt (lo hi : Int) (text : List Char) :
    parse lo hi text =
      (parseInt text).bind fun value => if lo ≤ value ∧ value ≤ hi then some value else none := by
  rw [parse, parseInt, Option.bind_map]
  rfl

theorem parse_format {lo hi n : Int} (hlo : lo ≤ n) (hhi : n ≤ hi) :
    parse lo hi (format n) = some n := by
  rw [parse_eq_parseInt, parseInt_format, Option.bind_some]
  exact if_pos ⟨hlo, hhi⟩

/-- No other character than digits and the sign is printed. -/
theorem of_mem_format {n : Int} {c : Char} (hc : c ∈ format n) : c = '-' ∨ c.isDigit = true := by
  rw [format] at hc
  have hdigit : c ∈ Nat.toDigits 10 n.natAbs → c.isDigit = true := fun h =>
    Nat.isDigit_of_mem_toDigits (by decide) (by decide) h
  split at hc
  · rcases List.mem_cons.mp hc with heq | hmem
    · exact .inl heq
    · exact .inr (hdigit hmem)
  · exact .inr (hdigit hc)

end Decimal
