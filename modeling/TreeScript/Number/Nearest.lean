/-!
# The float nearest to a decimal number

- `digitCount`: the number of decimal digits.
- `nearest`: the float nearest to `mantissa · 10 ^ exponent`, which is infinite or zero when the number
  is too large or too small for any other one.
-/

namespace TreeScript.Number

/-- The number of decimal digits of a number; zero has one. -/
def digitCount (n : Nat) : Nat := (Nat.toDigits 10 n).length

/-- The float above all others. -/
def infinity : Float := 1.0 / 0.0

/-- The float nearest to `mantissa · 10 ^ exponent`.  The number lies below `10 ^ magnitude` and not
below `10 ^ (magnitude - 1)`; past `10 ^ 309` every float is infinite, and below `10 ^ (-330)` every
float is zero. -/
def nearest (mantissa : Nat) (exponent : Int) : Float :=
  let magnitude := digitCount mantissa + exponent
  if mantissa = 0 then 0.0
  else if 310 < magnitude then infinity
  else if magnitude < -330 then 0.0
  else if 0 ≤ exponent then Float.ofScientific mantissa false exponent.toNat
  else Float.ofScientific mantissa true (-exponent).toNat

end TreeScript.Number
