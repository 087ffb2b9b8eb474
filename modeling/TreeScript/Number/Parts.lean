/-!
# The parts of a float

A finite float is `± mantissa · 2 ^ exponent`.  Its parts are read off its bits, and what a float is as
an integer is computed on them exactly.

- `parts`: sign and magnitude.
- `truncate?`: the integer part, when it fits into 64 bits.
-/

namespace TreeScript.Number

/-- The size of a float. -/
inductive Magnitude where
  /-- The number `mantissa · 2 ^ exponent`. -/
  | finite (mantissa : Nat) (exponent : Int)
  | infinite
  | notANumber
deriving Repr, DecidableEq

/-- A float as a sign and a magnitude. -/
structure Parts where
  negative : Bool
  magnitude : Magnitude
deriving Repr, DecidableEq

/-- Reads the sign bit, the eleven bits of the exponent and the 52 bits of the fraction. -/
def parts (x : Float) : Parts :=
  let bits := x.toBits.toNat
  let fraction := bits % Nat.pow 2 52
  let biased : Nat := bits / Nat.pow 2 52 % Nat.pow 2 11
  { negative := Nat.pow 2 63 ≤ bits
    magnitude :=
      if biased = 2047 then (if fraction = 0 then .infinite else .notANumber)
      else if biased = 0 then .finite fraction (-1074)
      else .finite (Nat.pow 2 52 + fraction) ((biased : Int) - 1075) }

/-- Whether a float is a number and not infinite. -/
def isFinite (x : Float) : Bool :=
  match (parts x).magnitude with
  | .finite _ _ => true
  | _ => false

/-- The number `mantissa · 2 ^ exponent` without its fraction. -/
def wholePart (mantissa : Nat) (exponent : Int) : Nat :=
  if 0 ≤ exponent then mantissa * Nat.pow 2 exponent.toNat else mantissa / Nat.pow 2 (-exponent).toNat

/-- An integer as a 64-bit one, if it is in range. -/
def int64? (n : Int) : Option Int64 :=
  if Int64.minValue.toInt ≤ n ∧ n ≤ Int64.maxValue.toInt then some (Int64.ofInt n) else none

/-- A finite float without its fraction, if it is in range. -/
def truncate? (x : Float) : Option Int64 :=
  match (parts x).magnitude with
  | .finite mantissa exponent =>
    let whole : Int := wholePart mantissa exponent
    int64? (if (parts x).negative then -whole else whole)
  | _ => none

end TreeScript.Number
