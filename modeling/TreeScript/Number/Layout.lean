import TreeScript.Number.Shortest

/-!
# Decimal layouts

How the shortest digits of a float are set out: with a point among them, or with one digit in front of
the point and an exponent.  A `Layout` holds the choices of one format.

- `Layout.value`: the texts of values, in documents, listings and messages.
- `Layout.json`: the numbers of JSON documents.
-/

namespace TreeScript.Number

/-- The choices of one format for floats. -/
structure Layout where
  /-- The least exponent of the first digit that is set out with a point alone. -/
  plainFrom : Int
  /-- The least larger exponent that is not. -/
  plainBelow : Int
  /-- What stands between the mark of the exponent and one that is not negative. -/
  exponentSign : String
  /-- Which of two equally short and equally near numbers is written. -/
  tie : Tie
deriving Repr, DecidableEq

namespace Layout

/-- Values are written with a point alone from `0.0001` to below `10 ^ 16`. -/
def value : Layout := ⟨-4, 16, "", .up⟩

/-- JSON numbers are written with a point alone from `0.00001` to below `10 ^ 16`. -/
def json : Layout := ⟨-5, 16, "+", .toEven⟩

/-- A run of zeros. -/
def zeros (n : Nat) : List Char := List.replicate n '0'

/-- Digits with a point alone; at least one digit stands on each side of it. -/
def plain (digits : List Char) (leading : Int) : List Char :=
  if leading < 0 then "0.".toList ++ zeros (-leading - 1).toNat ++ digits
  else
    let whole := leading.toNat + 1
    let fraction := digits.drop whole
    digits.take whole ++ zeros (whole - digits.length) ++ '.' ::
      (if fraction.isEmpty then ['0'] else fraction)

/-- Digits with one of them in front of the point, and an exponent; a single digit has no point. -/
def scientific (layout : Layout) (digits : List Char) (leading : Int) : List Char :=
  let mantissa :=
    match digits with
    | first :: second :: more => first :: '.' :: second :: more
    | _ => digits
  let sign := if leading < 0 then "-" else layout.exponentSign
  mantissa ++ 'e' :: sign.toList ++ Nat.toDigits 10 leading.natAbs

/-- A positive decimal number. -/
def positive (layout : Layout) (d : Decimal) : List Char :=
  let digits := Nat.toDigits 10 d.digits
  if layout.plainFrom ≤ d.leading ∧ d.leading < layout.plainBelow then plain digits d.leading
  else layout.scientific digits d.leading

/-- A float in the layout; the sign of zero is written, the sign of no number is not. -/
def render (layout : Layout) (x : Float) : List Char :=
  let sign := if (parts x).negative then ['-'] else []
  match (parts x).magnitude with
  | .notANumber => "NaN".toList
  | .infinite => sign ++ "inf".toList
  | .finite 0 _ => sign ++ "0.0".toList
  | .finite mantissa exponent =>
    sign ++ layout.positive (shortest layout.tie mantissa exponent (if (parts x).negative then -x else x))

end Layout

end TreeScript.Number
