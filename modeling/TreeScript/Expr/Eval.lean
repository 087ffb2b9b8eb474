import TreeScript.Expr.Value

/-!
# Evaluating expressions

An expression is evaluated as a truth value or as a decimal number.  A literal that does not stand for a
value in the domain is a name; a name without a node stands for the zero of the domain.

- `Scopes`: where names are looked up.
- `Expr.truth`, `Expr.decimal`: the two evaluations.
- `TypedExpr.eval`: evaluation in a domain; an integer is a decimal number without its fraction.
-/

namespace TreeScript

/-- A scope is a list of nodes, whose keys are the names. -/
abbrev Scope := KeyedList Node

/-- The scopes in which names are looked up, one after the other. -/
structure Scopes where
  primary : Scope
  fallback : Option Scope

namespace Scopes

/-- The node of a name. -/
def lookup (scopes : Scopes) (name : String) : Option Node :=
  scopes.primary.findOr? name scopes.fallback

end Scopes

namespace Expr

/-- The truth value that a literal stands for. -/
def truthLiteral? (text : String) : Option Bool :=
  let word := Text.lowered text.toList
  if word = "true".toList then some true else if word = "false".toList then some false else none

/-- A name as a value: that of its node, or a zero. -/
def lookupAs {α : Type} (scopes : Scopes) (name : String) (read : Node → Except Error α) (zero : α) :
    Except Error α :=
  match scopes.lookup name with
  | some node => read node
  | none => .ok zero

/-- An expression as a decimal number. -/
def decimal (scopes : Scopes) : Expr → Except Error Float
  | literal text =>
    match Scalar.literal? text.toList with
    | some x => .ok x
    | none => lookupAs scopes text Node.readDecimal 0.0
  | negative inner => do
    let x ← inner.decimal scopes
    return -x
  | binary .plus left right => do
    let x ← left.decimal scopes
    let y ← right.decimal scopes
    return x + y
  | binary .minus left right => do
    let x ← left.decimal scopes
    let y ← right.decimal scopes
    return x - y
  | binary .times left right => do
    let x ← left.decimal scopes
    let y ← right.decimal scopes
    return x * y
  | binary .divide left right => do
    let x ← left.decimal scopes
    let y ← right.decimal scopes
    if y == 0.0 then throw .divisionByZero else return x / y
  | binary op _ _ => throw (.operatorOutside op.symbol .decimal)

/-- An expression as a truth value.  The right operand of a conjunction or disjunction is evaluated only
if the left one does not decide. -/
def truth (scopes : Scopes) : Expr → Except Error Bool
  | literal text =>
    match truthLiteral? text with
    | some b => .ok b
    | none => lookupAs scopes text Node.readTruth false
  | negative _ => throw (.operatorOutside "-" .boolean)
  | binary .and left right => do
    if ← left.truth scopes then right.truth scopes else return false
  | binary .or left right => do
    if ← left.truth scopes then return true else right.truth scopes
  | binary .equal left right => do
    let x ← left.decimal scopes
    let y ← right.decimal scopes
    return x == y
  | binary .unequal left right => do
    let x ← left.decimal scopes
    let y ← right.decimal scopes
    return x != y
  | binary op _ _ => throw (.operatorOutside op.symbol .boolean)

/-- An expression as an integer: its decimal number without a fraction, which has to be in range. -/
def integer (scopes : Scopes) (e : Expr) : Except Error Int64 := do
  let x ← e.decimal scopes
  match Number.truncate? x with
  | some n => return n
  | none => throw (.unparsable (Scalar.decimalText x) .integer)

end Expr

/-- The value of an expression in its domain. -/
def TypedExpr.eval (scopes : Scopes) (e : TypedExpr) : Except Error Value :=
  match e.domain with
  | .integer => (e.expr.integer scopes).map .integer
  | .decimal => (e.expr.decimal scopes).map .decimal
  | .boolean => (e.expr.truth scopes).map .boolean

end TreeScript
