import TreeScript.Expr.Eval

/-!
# What an evaluation reads

An evaluation asks its scopes for the names among the literals of the expression and for nothing else.
Two pairs of scopes that have the same node, or none, for each of these names therefore give the same
value or the same error, in every domain.

- `Expr.literals`: the names that an expression may look up.
- `Scopes.Agree`: scopes that have the same nodes for some names.
- `Expr.decimal_congr`, `Expr.truth_congr`, `TypedExpr.eval_congr`: evaluations in such scopes.
- `Expr.integer_of_truncate?`: an integer expression by its decimal number.
-/

namespace TreeScript

/-- The literals of an expression, from left to right. -/
def Expr.literals : Expr → List String
  | literal text => [text]
  | negative inner => inner.literals
  | binary _ left right => left.literals ++ right.literals

namespace Scopes

/-- The scopes have the same node, or none, for each of the names. -/
def Agree (names : List String) (s t : Scopes) : Prop := ∀ name ∈ names, s.lookup name = t.lookup name

variable {names others : List String} {s t : Scopes}

theorem agree_singleton {name : String} : Agree [name] s t ↔ s.lookup name = t.lookup name := by
  simp [Agree]

theorem agree_append : Agree (names ++ others) s t ↔ Agree names s t ∧ Agree others s t := by
  simp [Agree, or_imp, forall_and]

end Scopes

namespace Expr

variable {s t : Scopes}

theorem lookupAs_congr {α : Type} {name : String} (h : s.lookup name = t.lookup name)
    (read : Node → Except Error α) (zero : α) :
    lookupAs s name read zero = lookupAs t name read zero := by
  unfold lookupAs
  rw [h]

/-- The decimal number of an expression depends on the nodes of its literals only. -/
theorem decimal_congr {e : Expr} (h : Scopes.Agree e.literals s t) : e.decimal s = e.decimal t := by
  induction e with
  | literal text =>
    have hlookup := lookupAs_congr (Scopes.agree_singleton.1 h) Node.readDecimal 0.0
    simp only [decimal, hlookup]
  | negative inner ih => simp only [decimal, ih h]
  | binary op left right ihl ihr =>
    obtain ⟨hl, hr⟩ := Scopes.agree_append.1 h
    cases op <;> simp only [decimal, ihl hl, ihr hr]

/-- The truth value of an expression depends on the nodes of its literals only. -/
theorem truth_congr {e : Expr} (h : Scopes.Agree e.literals s t) : e.truth s = e.truth t := by
  induction e with
  | literal text =>
    have hlookup := lookupAs_congr (Scopes.agree_singleton.1 h) Node.readTruth false
    simp only [truth, hlookup]
  | negative inner ih => rfl
  | binary op left right ihl ihr =>
    obtain ⟨hl, hr⟩ := Scopes.agree_append.1 h
    -- a comparison reads its operands as numbers
    cases op <;> simp only [truth, ihl hl, ihr hr, decimal_congr hl, decimal_congr hr]

theorem integer_of_truncate? {e : Expr} {x : Float} {n : Int64} (hx : e.decimal s = .ok x)
    (hn : Number.truncate? x = some n) : e.integer s = .ok n := by
  simp only [integer, hx, bind, Except.bind, hn, pure, Except.pure]

theorem integer_of_truncate?_eq_none {e : Expr} {x : Float} (hx : e.decimal s = .ok x)
    (hn : Number.truncate? x = none) :
    e.integer s = .error (.unparsable (Scalar.decimalText x) .integer) := by
  simp only [integer, hx, bind, Except.bind, hn]
  rfl

end Expr

theorem TypedExpr.eval_congr {s t : Scopes} {e : TypedExpr} (h : Scopes.Agree e.expr.literals s t) :
    e.eval s = e.eval t := by
  cases hdomain : e.domain with
  | integer => simp only [eval, hdomain, Expr.integer, Expr.decimal_congr h]
  | decimal => simp only [eval, hdomain, Expr.decimal_congr h]
  | boolean => simp only [eval, hdomain, Expr.truth_congr h]

end TreeScript
