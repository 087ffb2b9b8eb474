import TreeScript.Number.Nearest
import TreeScript.Number.Parts

/-!
# Shortest digits

A float is written with the fewest digits that read back to it; of two such numbers with equally many
digits, with the nearer one.  Where both are equally near, the format decides (`Tie`).

The candidates with a given number of digits are the two neighbours of the float on the decimal grid of
that many digits, found by exact arithmetic.  A candidate is accepted when `nearest` of it is the float,
so that what is written reads back by construction.
-/

namespace TreeScript.Number

/-- The number `digits · 10 ^ exponent`. -/
structure Decimal where
  digits : Nat
  exponent : Int
deriving Repr, DecidableEq

/-- Which of two equally near neighbours is taken. -/
inductive Tie where
  /-- The larger one. -/
  | up
  /-- The one whose last digit is even. -/
  | toEven
deriving Repr, DecidableEq

namespace Decimal

/-- The float that a decimal number is read as. -/
def toFloat (d : Decimal) : Float := nearest d.digits d.exponent

/-- Moves the zeros at the end of the digits into the exponent. -/
def dropZeros (d : Decimal) : Decimal :=
  if d.digits ≠ 0 ∧ d.digits % 10 = 0 then dropZeros ⟨d.digits / 10, d.exponent + 1⟩ else d
termination_by d.digits

/-- The exponent of the first digit. -/
def leading (d : Decimal) : Int := digitCount d.digits + d.exponent - 1

end Decimal

/-- A positive number as a quotient of natural numbers: `mantissa · 2 ^ binary / 10 ^ decimal`. -/
def quotient (mantissa : Nat) (binary decimal : Int) : Nat × Nat :=
  (mantissa * Nat.pow 2 binary.toNat * Nat.pow 10 (-decimal).toNat,
    Nat.pow 2 (-binary).toNat * Nat.pow 10 decimal.toNat)

/-- The exponent of the first digit of `mantissa · 2 ^ exponent`. -/
def leadingExponent (mantissa : Nat) (exponent : Int) : Int :=
  let (num, den) := quotient mantissa exponent 0
  if den ≤ num then digitCount (num / den) - 1 else -digitCount ((den - 1) / num)

/-- The neighbours of `mantissa · 2 ^ binary` on the grid of the multiples of `10 ^ decimal`, the nearer
one first. -/
def neighbours (tie : Tie) (mantissa : Nat) (binary decimal : Int) : List Decimal :=
  let (num, den) := quotient mantissa binary decimal
  let low := num / den
  let rest := 2 * (num % den)
  let lowFirst := rest < den ∨ rest = den ∧ tie = .toEven ∧ low % 2 = 0
  if lowFirst then [⟨low, decimal⟩, ⟨low + 1, decimal⟩] else [⟨low + 1, decimal⟩, ⟨low, decimal⟩]

/-- The number `mantissa · 2 ^ exponent` with all of its digits. -/
def exactDecimal (mantissa : Nat) (exponent : Int) : Decimal :=
  if 0 ≤ exponent then ⟨mantissa * Nat.pow 2 exponent.toNat, 0⟩
  else ⟨mantissa * Nat.pow 5 (-exponent).toNat, exponent⟩

/-- The shortest decimal number that reads back to the positive float `mantissa · 2 ^ exponent`.  All
floats have one with at most 17 digits. -/
def shortest (tie : Tie) (mantissa : Nat) (exponent : Int) (x : Float) : Decimal :=
  let leading := leadingExponent mantissa exponent
  let candidates := (List.range 17).flatMap fun (n : Nat) => neighbours tie mantissa exponent (leading - n)
  let found := candidates.find? fun d => d.toFloat.toBits = x.toBits
  (found.getD (exactDecimal mantissa exponent)).dropZeros

end TreeScript.Number
