import TreeScript.Expr.Value

/-!
# Keywords

The words that introduce a declaration, and what each of them declares.
-/

namespace TreeScript

/-- A word that introduces a declaration. -/
inductive Keyword where
  | param
  | bool
  | int
  | decimal
deriving Repr, DecidableEq

namespace Keyword

/-- How a keyword is written. -/
def word : Keyword → String
  | param => "param"
  | bool => "bool"
  | int => "int"
  | decimal => "decimal"

/-- The keyword that a word is. -/
def ofWord? (w : String) : Option Keyword := [param, bool, int, decimal].find? (·.word = w)

/-- The domain of what is declared; a parameter has none. -/
def domain? : Keyword → Option Domain
  | param => none
  | bool => some .boolean
  | int => some .integer
  | decimal => some .decimal

/-- The scalar that a declared variable starts with. -/
def initial (k : Keyword) : Scalar :=
  match k.domain? with
  | some domain => domain.zero.toScalar
  | none => .empty

theorem ofWord?_word (k : Keyword) : ofWord? k.word = some k := by cases k <;> decide

end Keyword

end TreeScript
