import TreeScript.Proofs.Failures

/-!
# Operators and their domains

Every operator computes a value of one kind from operands of one kind.  So it can be told from an
expression alone whether its operators go together: if they do, no evaluation complains about them, and
what can still fail is a division, an integer that is out of range, and the node of a name that is
looked up.  A number is only ever computed from all parts of an expression, so the expressions that have
a number in some scopes are such expressions.  This does not hold of truth values, since a connective
may leave its right operand alone.

- `Expr.isNumeric`, `Expr.isLogical`, `Expr.fits`: expressions whose operators go together.
- `Expr.ReadsNumbers`, `Expr.ReadsTruths`, `Expr.Reads`: the names that an evaluation looks up.
- `Operator.compute`, `Operator.decide`: an operator applied to numbers; `decimal_binary`,
  `truth_comparison`.
- `Error.Expected`: the errors that are left; `failsOnly_decimal_of_isNumeric`,
  `failsOnly_truth_of_isLogical`.
- `Expr.isNumeric_of_decimal`: what has a number is such an expression.
- `Expr.Foretold`, `Expr.foretold`: all of it, for expressions and typed expressions.
-/

namespace TreeScript

/-! ### Expressions whose operators go together -/

namespace Expr

/-- Whether all operators of an expression compute numbers from numbers. -/
def isNumeric : Expr → Bool
  | literal _ => true
  | negative inner => inner.isNumeric
  | binary op left right => !op.isLogical && left.isNumeric && right.isNumeric

/-- Whether the operators of an expression compute a truth value: connectives from truth values, and
comparisons from numbers. -/
def isLogical : Expr → Bool
  | literal _ => true
  | negative _ => false
  | binary op left right =>
    if op.isComparison then left.isNumeric && right.isNumeric
    else op.isLogical && left.isLogical && right.isLogical

/-- Whether the operators of an expression have a meaning in a domain. -/
def fits : Domain → Expr → Bool
  | .integer | .decimal => isNumeric
  | .boolean => isLogical

/-- A name that is looked up has no node, or one that can be read. -/
def Readable {α : Type} (scopes : Scopes) (read : Node → Except Error α) (name : String) : Prop :=
  ∀ node, scopes.lookup name = some node → ∃ a, read node = .ok a

/-- Each name that is looked up for a number is readable as one.  The right operand is evaluated if the
left one has a value. -/
def ReadsNumbers (scopes : Scopes) : Expr → Prop
  | literal text => Scalar.literal? text.toList = none → Readable scopes Node.readDecimal text
  | negative inner => inner.ReadsNumbers scopes
  | binary _ left right =>
    left.ReadsNumbers scopes ∧ ((∃ x, left.decimal scopes = .ok x) → right.ReadsNumbers scopes)

/-- Each name that is looked up for a truth value is readable as what is asked for.  The right operand of
a connective is evaluated if the left one does not decide. -/
def ReadsTruths (scopes : Scopes) : Expr → Prop
  | literal text => truthLiteral? text = none → Readable scopes Node.readTruth text
  | negative _ => True
  | binary .and left right =>
    left.ReadsTruths scopes ∧ (left.truth scopes = .ok true → right.ReadsTruths scopes)
  | binary .or left right =>
    left.ReadsTruths scopes ∧ (left.truth scopes = .ok false → right.ReadsTruths scopes)
  | binary _ left right =>
    left.ReadsNumbers scopes ∧ ((∃ x, left.decimal scopes = .ok x) → right.ReadsNumbers scopes)

/-- Each name that an evaluation in a domain looks up is readable as what is asked for. -/
def Reads (scopes : Scopes) : Domain → Expr → Prop
  | .integer | .decimal => ReadsNumbers scopes
  | .boolean => ReadsTruths scopes

end Expr

/-! ### Operators and numbers -/

namespace Operator

/-- What an operator computes from two numbers, if it computes a number. -/
def compute (op : Operator) (x y : Float) : Except Error Float :=
  match op with
  | plus => .ok (x + y)
  | minus => .ok (x - y)
  | times => .ok (x * y)
  | divide => if y == 0.0 then .error .divisionByZero else .ok (x / y)
  | and | or | equal | unequal => .error (.operatorOutside op.symbol .decimal)

/-- What an operator says about two numbers, if it compares them. -/
def decide (op : Operator) (x y : Float) : Except Error Bool :=
  match op with
  | equal => .ok (x == y)
  | unequal => .ok (x != y)
  | and | or | plus | minus | times | divide => .error (.operatorOutside op.symbol .boolean)

theorem failsOnly_compute {op : Operator} (h : op.isLogical = false) (x y : Float) :
    FailsOnly (· = .divisionByZero) (op.compute x y) := by
  cases op with
  | plus | minus | times => exact failsOnly_ok _
  | divide =>
    rw [compute]
    split
    · exact failsOnly_error rfl
    · exact failsOnly_ok _
  | and | or | equal | unequal => cases h

theorem failsOnly_decide {op : Operator} (h : op.isComparison = true) (x y : Float) {P : Error → Prop} :
    FailsOnly P (op.decide x y) := by
  cases op with
  | equal | unequal => exact failsOnly_ok _
  | and | or | plus | minus | times | divide => cases h

end Operator

namespace Expr

variable {scopes : Scopes} {e left right : Expr} {op : Operator}

/-- An operator that computes numbers evaluates its left operand, then its right one. -/
theorem decimal_binary (h : op.isLogical = false) : (binary op left right).decimal scopes =
    left.decimal scopes >>= fun x => right.decimal scopes >>= op.compute x := by
  cases op with
  | plus | minus | times | divide => rfl
  | and | or | equal | unequal => cases h

theorem decimal_binary_of_isLogical (h : op.isLogical = true) :
    (binary op left right).decimal scopes = .error (.operatorOutside op.symbol .decimal) := by
  cases op with
  | and | or | equal | unequal => rfl
  | plus | minus | times | divide => cases h

/-- A comparison evaluates its left operand, then its right one, as numbers. -/
theorem truth_comparison (h : op.isComparison = true) : (binary op left right).truth scopes =
    left.decimal scopes >>= fun x => right.decimal scopes >>= op.decide x := by
  cases op with
  | equal | unequal => rfl
  | and | or | plus | minus | times | divide => cases h

end Expr

/-! ### The errors that are left -/

namespace Error

/-- An error that is not about operators, and that is a division by zero if everything that is looked up
is readable. -/
structure Expected (readable : Prop) (e : Error) : Prop where
  inside : ∀ symbol domain, e ≠ operatorOutside symbol domain
  divides : readable → e = divisionByZero

theorem Expected.mono {p q : Prop} {e : Error} (h : Expected p e) (hqp : q → p) : Expected q e :=
  ⟨h.inside, fun hq => h.divides (hqp hq)⟩

theorem expected_divisionByZero (p : Prop) : Expected p divisionByZero :=
  ⟨fun _ _ h => (by cases h), fun _ => rfl⟩

end Error

namespace Expr

variable {scopes : Scopes} {e left right : Expr}

/-- A name fails with its node, which is not readable then. -/
theorem expected_lookupAs {α : Type} (name : String) (reading : Reading)
    (convert : Scalar → Option α) (zero : α) :
    FailsOnly (Error.Expected (Readable scopes (Node.readScalar · reading convert) name))
      (lookupAs scopes name (Node.readScalar · reading convert) zero) := by
  refine (failsOnly_lookupAs scopes name reading convert zero).mono ?_
  rintro _ ⟨node, value, hnode, herror, rfl⟩
  refine ⟨fun _ _ h => (by cases h), fun hreadable => ?_⟩
  obtain ⟨a, ha⟩ := hreadable node hnode
  have hcontra : Except.ok a = .error _ := ha.symm.trans herror
  cases hcontra

/-- Two numbers are evaluated one after the other, whatever is made of them. -/
theorem failsOnly_operands {α : Type} {f : Float → Float → Except Error α}
    (hleft : FailsOnly (Error.Expected (left.ReadsNumbers scopes)) (left.decimal scopes))
    (hright : FailsOnly (Error.Expected (right.ReadsNumbers scopes)) (right.decimal scopes))
    (hf : ∀ x y, FailsOnly (· = .divisionByZero) (f x y)) :
    FailsOnly (Error.Expected (left.ReadsNumbers scopes ∧
        ((∃ x, left.decimal scopes = .ok x) → right.ReadsNumbers scopes)))
      (left.decimal scopes >>= fun x => right.decimal scopes >>= f x) := by
  refine (hleft.mono fun e he => he.mono And.left).bind_of_ok fun x hx => ?_
  refine (hright.mono fun e he => he.mono fun h => h.2 ⟨x, hx⟩).bind_of_ok fun y _ => ?_
  exact (hf x y).mono fun e he => he ▸ Error.expected_divisionByZero _

/-- Where all operators compute numbers, what fails is a node or a division. -/
theorem failsOnly_decimal_of_isNumeric (h : e.isNumeric = true) :
    FailsOnly (Error.Expected (e.ReadsNumbers scopes)) (e.decimal scopes) := by
  induction e with
  | literal text =>
    rw [decimal]
    split
    · exact failsOnly_ok _
    · next hname =>
      exact (expected_lookupAs text _ _ _).mono fun e he => he.mono fun h => h hname
  | negative inner ih => exact (ih h).bind_of_ok fun _ _ => failsOnly_ok _
  | binary op left right ihl ihr =>
    simp only [isNumeric, Bool.and_eq_true, Bool.not_eq_true'] at h
    obtain ⟨⟨hop, hleft⟩, hright⟩ := h
    rw [decimal_binary hop]
    have hoperands := failsOnly_operands (ihl hleft) (ihr hright) (Operator.failsOnly_compute hop)
    exact hoperands.mono fun e he => he.mono fun h => h

/-- Where the operators compute a truth value, what fails is a node or a division. -/
theorem failsOnly_truth_of_isLogical (h : e.isLogical = true) :
    FailsOnly (Error.Expected (e.ReadsTruths scopes)) (e.truth scopes) := by
  induction e with
  | literal text =>
    rw [truth]
    split
    · exact failsOnly_ok _
    · next hname =>
      exact (expected_lookupAs text _ _ _).mono fun e he => he.mono fun h => h hname
  | negative inner ih => cases h
  | binary op left right ihl ihr =>
    cases op with
    | equal | unequal =>
      obtain ⟨hleft, hright⟩ := Bool.and_eq_true_iff.1 h
      rw [truth_comparison rfl]
      exact failsOnly_operands (failsOnly_decimal_of_isNumeric hleft)
        (failsOnly_decimal_of_isNumeric hright) fun x y => Operator.failsOnly_decide rfl x y
    | and =>
      obtain ⟨hleft, hright⟩ := Bool.and_eq_true_iff.1 h
      refine ((ihl hleft).mono fun e he => he.mono And.left).bind_of_ok fun b hb => ?_
      cases b with
      | true => exact (ihr hright).mono fun e he => he.mono fun h => h.2 hb
      | false => exact failsOnly_ok _
    | or =>
      obtain ⟨hleft, hright⟩ := Bool.and_eq_true_iff.1 h
      refine ((ihl hleft).mono fun e he => he.mono And.left).bind_of_ok fun b hb => ?_
      cases b with
      | true => exact failsOnly_ok _
      | false => exact (ihr hright).mono fun e he => he.mono fun h => h.2 hb
    | plus | minus | times | divide => cases h

/-! ### What has a number -/

/-- All parts of an expression with a number have numbers, so that no operator is out of place. -/
theorem isNumeric_of_decimal {x : Float} (h : e.decimal scopes = .ok x) : e.isNumeric = true := by
  induction e generalizing x with
  | literal text => rfl
  | negative inner ih =>
    obtain ⟨y, hy, -⟩ := bind_eq_ok_iff.1 h
    exact ih hy
  | binary op left right ihl ihr =>
    cases hop : op.isLogical with
    | true =>
      rw [decimal_binary_of_isLogical hop] at h
      cases h
    | false =>
      rw [decimal_binary hop] at h
      obtain ⟨y, hy, h⟩ := bind_eq_ok_iff.1 h
      obtain ⟨z, hz, -⟩ := bind_eq_ok_iff.1 h
      simp [isNumeric, hop, ihl hy, ihr hz]

/-! ### Evaluation in a domain -/

/-- What can be told of an evaluation in a domain: if the operators go together, it does not complain
about them; if moreover everything that is looked up is readable, only a division fails, or an integer
that is out of range; and a number comes from operators that go together. -/
structure Foretold {α : Type} (scopes : Scopes) (d : Domain) (e : Expr) (result : Except Error α) :
    Prop where
  inside : e.fits d = true → ∀ symbol domain, result ≠ .error (.operatorOutside symbol domain)
  divides : e.fits d = true → e.Reads scopes d → ∀ err, result = .error err →
    err = .divisionByZero ∨ d = .integer ∧ ∃ text, err = .unparsable text .integer
  fits : d ≠ .boolean → ∀ a, result = .ok a → e.fits d = true

theorem Foretold.map {α β : Type} {d : Domain} {result : Except Error α}
    (h : Foretold scopes d e result) (f : α → β) : Foretold scopes d e (result.map f) where
  inside hfits symbol domain herror := h.inside hfits symbol domain (map_eq_error_iff.1 herror)
  divides hfits hreads err herror := h.divides hfits hreads err (map_eq_error_iff.1 herror)
  fits hd b hok := by
    obtain ⟨a, ha, -⟩ := map_eq_ok_iff.1 hok
    exact h.fits hd a ha

theorem foretold_decimal (scopes : Scopes) (e : Expr) :
    Foretold scopes .decimal e (e.decimal scopes) where
  inside hfits symbol domain herror :=
    (failsOnly_decimal_of_isNumeric hfits _ herror).inside symbol domain rfl
  divides hfits hreads err herror :=
    .inl ((failsOnly_decimal_of_isNumeric hfits err herror).divides hreads)
  fits _ _ hok := isNumeric_of_decimal hok

theorem foretold_truth (scopes : Scopes) (e : Expr) :
    Foretold scopes .boolean e (e.truth scopes) where
  inside hfits symbol domain herror :=
    (failsOnly_truth_of_isLogical hfits _ herror).inside symbol domain rfl
  divides hfits hreads err herror :=
    .inl ((failsOnly_truth_of_isLogical hfits err herror).divides hreads)
  fits hd := absurd rfl hd

/-- An integer is a number first, which may be out of range. -/
theorem integer_eq_error {err : Error} (h : e.integer scopes = .error err) :
    e.decimal scopes = .error err ∨ ∃ text, err = .unparsable text .integer := by
  unfold integer at h
  cases hx : e.decimal scopes with
  | error err' =>
    rw [hx] at h
    cases h
    exact .inl rfl
  | ok x =>
    rw [hx] at h
    cases hn : Number.truncate? x with
    | some n => simp [bind, Except.bind, hn, pure, Except.pure] at h
    | none =>
      simp only [bind, Except.bind, hn] at h
      cases h
      exact .inr ⟨_, rfl⟩

theorem foretold_integer (scopes : Scopes) (e : Expr) :
    Foretold scopes .integer e (e.integer scopes) where
  inside hfits symbol domain herror := by
    obtain herror | ⟨text, herror⟩ := integer_eq_error herror
    · exact (foretold_decimal scopes e).inside hfits symbol domain herror
    · cases herror
  divides hfits hreads err herror := by
    obtain herror | hrange := integer_eq_error herror
    · exact .inl ((failsOnly_decimal_of_isNumeric hfits err herror).divides hreads)
    · exact .inr ⟨rfl, hrange⟩
  fits _ n hok := by
    obtain ⟨x, hx, -⟩ := bind_eq_ok_iff.1 hok
    exact isNumeric_of_decimal hx

/-- **Domains are told from the expression.**  The evaluation of any expression in any scopes goes as its
operators foretell, as an expression and as a typed expression of any domain. -/
theorem foretold (scopes : Scopes) (e : Expr) :
    Foretold scopes .decimal e (e.decimal scopes) ∧ Foretold scopes .boolean e (e.truth scopes) ∧
    Foretold scopes .integer e (e.integer scopes) ∧
    ∀ d, Foretold scopes d e (TypedExpr.eval scopes ⟨e, d⟩) := by
  refine ⟨foretold_decimal scopes e, foretold_truth scopes e, foretold_integer scopes e, fun d => ?_⟩
  cases d with
  | integer => exact (foretold_integer scopes e).map _
  | decimal => exact (foretold_decimal scopes e).map _
  | boolean => exact (foretold_truth scopes e).map _

theorem foretold_sample :
    let e : Expr := .binary .divide (.literal "x") (.literal "y")
    let scopes : Scopes := ⟨.ofList [.leaf "x" (.text "3")], none⟩
    e.fits .decimal = true ∧ e.Reads scopes .decimal ∧ e.fits .boolean = false ∧
      TypedExpr.eval scopes ⟨e, .decimal⟩ = .error .divisionByZero := by
  intro e scopes
  have hreads : e.Reads scopes .decimal := by
    refine ⟨fun _ node hnode => ?_, fun _ _ node hnode => ?_⟩
    · cases hnode
      exact ⟨_, rfl⟩
    · cases hnode
  have hfails : ∃ err, TypedExpr.eval scopes ⟨e, .decimal⟩ = .error err := ⟨_, rfl⟩
  obtain ⟨err, herr⟩ := hfails
  obtain rfl | ⟨hinteger, -⟩ := ((foretold scopes e).2.2.2 .decimal).divides rfl hreads err herr
  · exact ⟨rfl, hreads, rfl, herr⟩
  · cases hinteger

/-- A truth value does not come from operators that go together. -/
example : let e : Expr := .binary .or (.literal "true") (.negative (.literal "x"))
    e.truth ⟨.empty, none⟩ = .ok true ∧ e.fits .boolean = false :=
  ⟨rfl, rfl⟩

end Expr

end TreeScript
