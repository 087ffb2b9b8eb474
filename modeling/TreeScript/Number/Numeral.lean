import TreeScript.Number.Nearest
import TreeScript.Number.Parts

/-!
# Numerals

How numbers are read.  All digits are the ASCII ones.

- `integer?`: an optional sign and at least one digit, within 64 bits.
- `looksDecimal`: the characters that a decimal literal may have.
- `decimal?`: an optional sign, digits with an optional point, an optional exponent.
- `decimalOrWord?`: the same, or one of the words for infinity and for no number.
-/

namespace TreeScript.Number

/-- The number that a run of digits stands for. -/
def digitsValue (digits : List Char) : Nat :=
  digits.foldl (fun n c => 10 * n + (c.toNat - '0'.toNat)) 0

/-- Splits off a sign: whether it is a minus, and the text behind it. -/
def splitSign : List Char → Bool × List Char
  | '-' :: cs => (true, cs)
  | '+' :: cs => (false, cs)
  | cs => (false, cs)

/-- At least one digit, and nothing else. -/
def natural? (cs : List Char) : Option Nat :=
  if !cs.isEmpty && cs.all Char.isDigit then some (digitsValue cs) else none

/-- An integer of any size. -/
def signed? (cs : List Char) : Option Int :=
  let (negative, digits) := splitSign cs
  (natural? digits).map fun n => if negative then -n else n

/-- An integer of 64 bits. -/
def integer? (cs : List Char) : Option Int64 := (signed? cs).bind int64?

/-- Whether a text consists of the characters of a decimal literal, with at least one digit. -/
def looksDecimal (cs : List Char) : Bool :=
  cs.any Char.isDigit && cs.all fun c => c.isDigit || c ∈ ['+', '-', '.', 'e', 'E']

/-- The end of a decimal literal: nothing, or a mark and an integer. -/
def exponent? : List Char → Option Int
  | [] => some 0
  | c :: cs => if c = 'e' ∨ c = 'E' then signed? cs else none

/-- The digits behind a point, and the text behind them. -/
def splitFraction : List Char → List Char × List Char
  | '.' :: cs => (cs.takeWhile Char.isDigit, cs.dropWhile Char.isDigit)
  | cs => ([], cs)

/-- A decimal literal without a sign: digits on at least one side of the point. -/
def unsignedDecimal? (cs : List Char) : Option Float :=
  let whole := cs.takeWhile Char.isDigit
  let (fraction, tail) := splitFraction (cs.dropWhile Char.isDigit)
  if whole.isEmpty && fraction.isEmpty then none
  else
    (exponent? tail).map fun exponent =>
      nearest (digitsValue (whole ++ fraction)) (exponent - fraction.length)

/-- Reads a number behind an optional sign. -/
def withSign (read : List Char → Option Float) (cs : List Char) : Option Float :=
  let (negative, text) := splitSign cs
  (read text).map fun x => if negative then -x else x

/-- A decimal literal. -/
def decimal? (cs : List Char) : Option Float := withSign unsignedDecimal? cs

/-- The words that stand for a float, in any case. -/
def word? (cs : List Char) : Option Float :=
  let word := String.ofList (cs.map Char.toLower)
  if word = "inf" ∨ word = "infinity" then some infinity
  else if word = "nan" then some (0.0 / 0.0)
  else none

/-- A decimal literal, or a word that stands for a float. -/
def decimalOrWord? (cs : List Char) : Option Float :=
  withSign (fun text => unsignedDecimal? text <|> word? text) cs

end TreeScript.Number
