import TreeScript.Expr.Basic
import TreeScript.Node.Basic

/-!
# Values

What an expression evaluates to, and what a native function receives.

- `Value`: an integer, a decimal number or a truth value.
- `Domain.zero`: the value that stands for a missing one.
- `TypedExpr`: an expression and the domain in which it is evaluated.
-/

namespace TreeScript

/-- The result of an expression. -/
inductive Value where
  | integer (value : Int64)
  | decimal (value : Float)
  | boolean (value : Bool)

namespace Value

/-- The domain that a value belongs to. -/
def domain : Value → Domain
  | integer _ => .integer
  | decimal _ => .decimal
  | boolean _ => .boolean

/-- A value as the scalar of a leaf. -/
def toScalar : Value → Scalar
  | integer n => .integer n
  | decimal x => .decimal x
  | boolean b => .boolean b

/-- A truth value is no decimal number. -/
def decimal? : Value → Option Float
  | integer n => some (Scalar.ofInteger n)
  | decimal x => some x
  | boolean _ => none

/-- A number is no truth value. -/
def truth? : Value → Option Bool
  | boolean b => some b
  | _ => none

/-- A value as a text. -/
def written (value : Value) : String := value.toScalar.written

instance : ToString Value := ⟨written⟩

end Value

/-- The zero of a domain. -/
def Domain.zero : Domain → Value
  | .integer => .integer 0
  | .decimal => .decimal 0.0
  | .boolean => .boolean false

theorem Domain.domain_zero (d : Domain) : d.zero.domain = d := by cases d <;> rfl

/-- An expression and the domain in which it is evaluated. -/
structure TypedExpr where
  expr : Expr
  domain : Domain
deriving Repr, DecidableEq

namespace TypedExpr

/-- A typed expression as a text. -/
def written (e : TypedExpr) : String := e.domain.name ++ " " ++ e.expr.written

instance : ToString TypedExpr := ⟨written⟩

end TypedExpr

end TreeScript
