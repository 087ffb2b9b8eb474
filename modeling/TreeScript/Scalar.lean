import TreeScript.Domain
import TreeScript.Number.Layout
import TreeScript.Number.Numeral
import TreeScript.Text.Blank
import TreeScript.Text.Truth

/-!
# Scalars

A scalar is the value of a leaf: a text, an integer of 64 bits, a decimal number, or a truth value.

- `Scalar.infer`: the scalar that a written value stands for.
- `Scalar.written`: how a scalar is written.
- `Scalar.integer?`, `Scalar.decimal?`, `Scalar.truth?`: a scalar as a value of another type.
-/

namespace TreeScript

/-- The value of a leaf. -/
inductive Scalar where
  | text (text : String)
  | integer (value : Int64)
  | decimal (value : Float)
  | boolean (value : Bool)

namespace Scalar

/-- The scalar without content. -/
def empty : Scalar := .text ""

instance : Inhabited Scalar := ⟨empty⟩

/-- A decimal literal whose characters are those of a number; words are none. -/
def literal? (cs : List Char) : Option Float :=
  if Number.looksDecimal cs then Number.decimal? cs else none

/-- A written value without its outer blanks is an integer if it can be read as one, else a decimal
number if it can be read as one.  Any other value is a text, blanks included. -/
def infer (written : String) : Scalar :=
  let trimmed := Text.trim written.toList
  match Number.integer? trimmed, literal? trimmed with
  | some n, _ => .integer n
  | none, some x => .decimal x
  | none, none => .text written

/-- The name of the scalar's type in listings. -/
def typeName : Scalar → String
  | .text _ => "text"
  | .integer _ => "integer"
  | .decimal _ => "decimal"
  | .boolean _ => "boolean"

/-- The float nearest to an integer. -/
def ofInteger (n : Int64) : Float := Float.ofInt n.toInt

/-- A decimal number loses its fraction; one that is out of range, and a truth value, is no integer. -/
def integer? : Scalar → Option Int64
  | .text t => Number.integer? (Text.trim t.toList)
  | .integer n => some n
  | .decimal x => Number.truncate? x
  | .boolean _ => none

/-- A truth value is no decimal number. -/
def decimal? : Scalar → Option Float
  | .text t => literal? (Text.trim t.toList)
  | .integer n => some (ofInteger n)
  | .decimal x => some x
  | .boolean _ => none

/-- A number is no truth value. -/
def truth? : Scalar → Option Bool
  | .text t => Text.truth? (Text.trim t.toList)
  | .integer _ | .decimal _ => none
  | .boolean b => some b

/-- The text of a decimal number. -/
def decimalText (x : Float) : String := String.ofList (Number.Layout.value.render x)

/-- How a scalar is written. -/
def written : Scalar → String
  | .text t => t
  | .integer n => toString n.toInt
  | .decimal x => decimalText x
  | .boolean b => if b then "true" else "false"

instance : ToString Scalar := ⟨written⟩

end Scalar

end TreeScript
