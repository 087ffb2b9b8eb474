/-!
# Expressions

An expression is a literal or a name, a negation, or two expressions with an operator between them.
There is no precedence: operators are applied from left to right.

- `Operator`: the binary operators and their signs.
- `Expr`: expressions.
- `Expr.written`: an expression as a text, with parentheses around every pair.
-/

namespace TreeScript

/-- An operator between two expressions. -/
inductive Operator where
  | and
  | or
  | equal
  | unequal
  | plus
  | minus
  | times
  | divide
deriving Repr, DecidableEq

namespace Operator

/-- The characters that start an operator. -/
def signs : List Char := ['&', '|', '=', '!', '+', '-', '*', '/']

/-- The operator that a character starts. -/
def ofSign? : Char → Option Operator
  | '&' => some and
  | '|' => some or
  | '=' => some equal
  | '!' => some unequal
  | '+' => some plus
  | '-' => some minus
  | '*' => some times
  | '/' => some divide
  | _ => none

/-- How an operator is written. -/
def symbol : Operator → String
  | and => "&"
  | or => "|"
  | equal => "="
  | unequal => "!="
  | plus => "+"
  | minus => "-"
  | times => "*"
  | divide => "/"

/-- Whether the result is a truth value. -/
def isLogical : Operator → Bool
  | and | or | equal | unequal => true
  | plus | minus | times | divide => false

/-- Whether the operator compares two numbers; an equals sign may follow its own sign. -/
def isComparison : Operator → Bool
  | equal | unequal => true
  | _ => false

theorem mem_signs_iff (c : Char) : c ∈ signs ↔ (ofSign? c).isSome := by
  unfold ofSign?
  split <;> simp_all [signs]

end Operator

/-- An expression. -/
inductive Expr where
  /-- A literal or a name; which one is known when it is evaluated. -/
  | literal (text : String)
  | negative (inner : Expr)
  | binary (op : Operator) (left right : Expr)
deriving Repr, DecidableEq

namespace Expr

instance : Inhabited Expr := ⟨literal ""⟩

def isLiteral : Expr → Bool
  | literal _ => true
  | _ => false

/-- An expression as a text. -/
def written : Expr → String
  | literal text => text
  | negative inner => "-" ++ inner.written
  | binary op left right => "(" ++ left.written ++ " " ++ op.symbol ++ " " ++ right.written ++ ")"

instance : ToString Expr := ⟨written⟩

end Expr

end TreeScript
