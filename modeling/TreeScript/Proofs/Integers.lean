import TreeScript.Procedure.Run
import TreeScript.Proofs.Evaluation
import TreeScript.Proofs.Rounding

/-!
# Integers in expressions

An expression is evaluated as a truth value or as a decimal number, so a name that has an integer stands for the
float nearest to it.  What an expression of integers gives back is the integer rounded to the 53 binary digits of
a float; the last 512 integers are rounded out of range, and are refused.  Integers up to `2 ^ 53` are exact, and
so are longer ones that end with enough zeros.

- `roundedInt_cases`, `roundedInt_eq_iff_exists`: the range of rounded integers, and the exact ones.
- `truncate?_ofInteger`: an integer that becomes a float and an integer again.
- `HasInteger`, `GivesRounded`, `givesRounded_of_hasInteger`: names in expressions, equations and assignments.
-/

namespace TreeScript

open Number

/-! ### Integers of 64 bits -/

/-- Only the last 512 integers are rounded out of range. -/
theorem roundedInt_cases {i : Int} (hlow : -2 ^ 63 ≤ i) (hhigh : i < 2 ^ 63) :
    (i < 2 ^ 63 - 512 ∧ -2 ^ 63 ≤ roundedInt i ∧ roundedInt i < 2 ^ 63) ∨
      (2 ^ 63 - 512 ≤ i ∧ roundedInt i = 2 ^ 63) := by
  by_cases hneg : i < 0
  · have hle : rounded i.natAbs ≤ 2 ^ 63 := by
      rcases Nat.lt_or_ge i.natAbs (2 ^ 63) with hlt | hge
      · exact rounded_le_of_lt (by decide) hlt
      · have hmin : i.natAbs = 2 ^ 63 := by omega
        rw [hmin, rounded_eq_iff.2 ⟨1, 63, by decide, by decide⟩]
    rw [roundedInt, if_pos hneg]
    exact .inl ⟨by omega, by omega, by omega⟩
  · have hcases := rounded_cases (n := i.natAbs) (by omega)
    rw [roundedInt, if_neg hneg]
    omega

/-- **Integers that are not rounded.** -/
theorem roundedInt_eq_iff_exists {i : Int} :
    roundedInt i = i ↔ ∃ (q : Int) (k : Nat), q.natAbs ≤ 2 ^ 53 ∧ i = q * 2 ^ k := by
  have hnat : roundedInt i = i ↔ rounded i.natAbs = i.natAbs := by
    rw [roundedInt]
    split_ifs <;> omega
  rw [hnat, rounded_eq_iff]
  constructor
  · rintro ⟨q, k, hq, habs⟩
    have hcast : (i.natAbs : Int) = (q : Int) * 2 ^ k := by rw [habs]; push_cast; rfl
    by_cases hneg : i < 0
    · refine ⟨-q, k, by omega, ?_⟩
      rw [Int.neg_mul, ← hcast]
      omega
    · exact ⟨q, k, by omega, by omega⟩
  · rintro ⟨q, k, hq, rfl⟩
    refine ⟨q.natAbs, k, hq, ?_⟩
    rw [Int.natAbs_mul, Int.natAbs_pow]
    rfl

theorem dist_roundedInt_le (i : Int) : 2 * (roundedInt i - i).natAbs ≤ 2 ^ excess i.natAbs := by
  have hdist := dist_rounded_le i.natAbs
  rw [roundedInt]
  split_ifs <;> omega

/-- The exponent of a float has place for any integer of 64 bits. -/
theorem log2_natAbs_toInt_lt (i : Int64) : i.toInt.natAbs.log2 < 1023 := by
  have hlow := i.le_toInt
  have hhigh := i.toInt_lt
  by_cases hzero : i.toInt.natAbs = 0
  · rw [hzero]
    decide
  · have hlog : i.toInt.natAbs.log2 < 64 := (Nat.log2_lt hzero).2 (by omega)
    omega

/-- **An integer that becomes a float and an integer again** is rounded, and the last 512 are lost. -/
theorem truncate?_ofInteger (i : Int64) :
    truncate? (Scalar.ofInteger i) =
      if i.toInt < 2 ^ 63 - 512 then some (Int64.ofInt (roundedInt i.toInt)) else none := by
  have hmin : Int64.minValue.toInt = -2 ^ 63 := rfl
  have hmax : Int64.maxValue.toInt = 2 ^ 63 - 1 := rfl
  rw [Scalar.ofInteger, truncate?_ofInt (log2_natAbs_toInt_lt i), int64?, hmin, hmax]
  rcases roundedInt_cases i.le_toInt i.toInt_lt with ⟨hi, hlow, hhigh⟩ | ⟨hi, hout⟩
  · rw [if_pos hi, if_pos ⟨hlow, by omega⟩]
  · rw [if_neg (by omega), if_neg (by omega)]

theorem isNormal_two_pow : IsNormal (2 ^ 52) 11 := ⟨by decide, by decide, by decide, by decide⟩

theorem hasValue_two_pow : HasValue (2 ^ 52) 11 (2 ^ 63) := rfl

theorem decimalText_two_pow :
    Scalar.decimalText (normal .positive isNormal_two_pow) = "9.223372036854776e18" := by
  with_unfolding_all rfl

/-- The integers that are lost become the float `2 ^ 63`. -/
theorem ofInteger_eq_two_pow {i : Int64} (h : 2 ^ 63 - 512 ≤ i.toInt) :
    Scalar.ofInteger i = normal .positive isNormal_two_pow := by
  have hhigh := i.toInt_lt
  have hne : i.toInt ≠ 0 := by omega
  obtain ⟨m, e, hm, hfloat, hvalue⟩ := exists_ofInt hne (log2_natAbs_toInt_lt i)
  have hrounded : rounded i.toInt.natAbs = 2 ^ 63 := by
    have := rounded_cases (n := i.toInt.natAbs) (by omega)
    omega
  have hsign : signOf i.toInt = .positive := if_neg (by omega)
  rw [hrounded] at hvalue
  obtain ⟨rfl, rfl⟩ := hvalue.eq hm hasValue_two_pow isNormal_two_pow
  rw [Scalar.ofInteger, hfloat, hsign]

/-! ### Names with integers -/

/-- A name that is no number, and stands for an integer. -/
def HasInteger (scopes : Scopes) (name : String) (i : Int64) : Prop :=
  Scalar.literal? name.toList = none ∧ ∃ key, scopes.lookup name = some (.leaf key (.integer i))

variable {scopes : Scopes} {x y : String} {i j : Int64}

theorem HasInteger.decimal_eq (h : HasInteger scopes x i) :
    (Expr.literal x).decimal scopes = .ok (Scalar.ofInteger i) := by
  obtain ⟨hname, key, hnode⟩ := h
  rw [Expr.decimal, hname]
  simp only [Expr.lookupAs, hnode]
  rfl

/-- The value that an integer expression has for a name with an integer. -/
def roundedValue (i : Int64) : Except Error Value :=
  if i.toInt < 2 ^ 63 - 512 then .ok (.integer (.ofInt (roundedInt i.toInt)))
  else .error (.unparsable "9.223372036854776e18" .integer)

theorem HasInteger.eval_eq (h : HasInteger scopes x i) :
    TypedExpr.eval scopes ⟨.literal x, .integer⟩ = roundedValue i := by
  have htruncate := truncate?_ofInteger i
  show ((Expr.literal x).integer scopes).map Value.integer = _
  rw [roundedValue]
  by_cases hi : i.toInt < 2 ^ 63 - 512
  · rw [if_pos hi] at htruncate
    rw [if_pos hi, Expr.integer_of_truncate? h.decimal_eq htruncate]
    rfl
  · rw [if_neg hi] at htruncate
    rw [if_neg hi, Expr.integer_of_truncate?_eq_none h.decimal_eq htruncate,
      ofInteger_eq_two_pow (Int.not_lt.1 hi), decimalText_two_pow]
    rfl

theorem roundedValue_eq_ok_iff (i : Int64) :
    roundedValue i = .ok (.integer i) ↔
      ∃ (q : Int) (k : Nat), q.natAbs ≤ 2 ^ 53 ∧ i.toInt = q * 2 ^ k := by
  rw [← roundedInt_eq_iff_exists, roundedValue]
  rcases roundedInt_cases i.le_toInt i.toInt_lt with ⟨hi, hlow, hhigh⟩ | ⟨hi, hout⟩
  · rw [if_pos hi]
    constructor
    · intro h
      have hvalue : Int64.ofInt (roundedInt i.toInt) = i := by
        injection h with h
        injection h
      have hrange := Int64.toInt_ofInt_of_le hlow hhigh
      rwa [hvalue, eq_comm] at hrange
    · intro h
      rw [h, Int64.ofInt_toInt]
  · have hhigh := i.toInt_lt
    rw [if_neg (by omega)]
    exact iff_of_false (fun h => nomatch h) (by omega)

theorem HasInteger.truth_equal (hx : HasInteger scopes x i) (hy : HasInteger scopes y j) :
    (Expr.binary .equal (.literal x) (.literal y)).truth scopes =
      .ok (decide (roundedInt i.toInt = roundedInt j.toInt)) := by
  have hequal : (Scalar.ofInteger i == Scalar.ofInteger j) =
      decide (roundedInt i.toInt = roundedInt j.toInt) := by
    rw [Bool.eq_iff_iff, decide_eq_true_iff]
    exact ofInt_beq_iff (log2_natAbs_toInt_lt i) (log2_natAbs_toInt_lt j)
  rw [Expr.truth, hx.decimal_eq, hy.decimal_eq, ← hequal]
  rfl

/-- What expressions make of a name with an integer. -/
structure GivesRounded (scopes : Scopes) (x : String) (i : Int64) : Prop where
  /-- The integer is rounded to the nearest float, and refused if that is out of range. -/
  eval_eq : TypedExpr.eval scopes ⟨.literal x, .integer⟩ = roundedValue i
  near : 2 * (roundedInt i.toInt - i.toInt).natAbs ≤ 2 ^ excess i.toInt.natAbs
  /-- It comes back exactly if only 53 of its binary digits count. -/
  exact_iff : TypedExpr.eval scopes ⟨.literal x, .integer⟩ = .ok (.integer i) ↔
    ∃ (q : Int) (k : Nat), q.natAbs ≤ 2 ^ 53 ∧ i.toInt = q * 2 ^ k
  /-- An equation compares the rounded integers. -/
  truth_equal : ∀ y j, HasInteger scopes y j →
    (Expr.binary .equal (.literal x) (.literal y)).truth scopes =
      .ok (decide (roundedInt i.toInt = roundedInt j.toInt))
  /-- An assignment writes the rounded integer, or fails with the error of the expression. -/
  step_assign : ∀ policy (m : Machine) target, m.scopes policy = scopes →
    Statement.step policy m (.assign target ⟨.literal x, .integer⟩) =
      (roundedValue i).map (m.assign policy target)

/-- **Integers are rounded in expressions**: to the nearest float, as an integer again if that is in range. -/
theorem givesRounded_of_hasInteger (h : HasInteger scopes x i) : GivesRounded scopes x i where
  eval_eq := h.eval_eq
  near := dist_roundedInt_le i.toInt
  exact_iff := by rw [h.eval_eq, roundedValue_eq_ok_iff]
  truth_equal y j hy := h.truth_equal hy
  step_assign policy m target hscopes := by
    subst hscopes
    rw [Statement.step, h.eval_eq]
    cases roundedValue i <;> rfl

theorem givesRounded_of_hasInteger_sample :
    let scope : Scope := .ofList [.leaf "x" (.integer 9007199254740994)]
    HasInteger ⟨scope, none⟩ "x" 9007199254740994 ∧
      TypedExpr.eval ⟨scope, none⟩ ⟨.literal "x", .integer⟩ = .ok (.integer 9007199254740994) := by
  intro scope
  have hinteger : HasInteger ⟨scope, none⟩ "x" 9007199254740994 := by
    refine ⟨by with_unfolding_all rfl, "x", ?_⟩
    with_unfolding_all rfl
  exact ⟨hinteger, (givesRounded_of_hasInteger hinteger).exact_iff.2
    ⟨4503599627370497, 1, by decide, by decide⟩⟩

/-- An integer that comes back as another one and is equal to it, and one that is refused. -/
theorem exists_rounded_away :
    let scopes : Scopes := ⟨.ofList [.leaf "x" (.integer 9007199254740993),
      .leaf "y" (.integer 9007199254740992), .leaf "z" (.integer Int64.maxValue)], none⟩
    (HasInteger scopes "x" 9007199254740993 ∧ HasInteger scopes "y" 9007199254740992 ∧
        HasInteger scopes "z" Int64.maxValue) ∧
      TypedExpr.eval scopes ⟨.literal "x", .integer⟩ = .ok (.integer 9007199254740992) ∧
      (Expr.binary .equal (.literal "x") (.literal "y")).truth scopes = .ok true ∧
      TypedExpr.eval scopes ⟨.literal "z", .integer⟩ =
        .error (.unparsable "9.223372036854776e18" .integer) := by
  intro scopes
  have hx : HasInteger scopes "x" 9007199254740993 :=
    ⟨by with_unfolding_all rfl, "x", by with_unfolding_all rfl⟩
  have hy : HasInteger scopes "y" 9007199254740992 :=
    ⟨by with_unfolding_all rfl, "y", by with_unfolding_all rfl⟩
  have hz : HasInteger scopes "z" Int64.maxValue :=
    ⟨by with_unfolding_all rfl, "z", by with_unfolding_all rfl⟩
  refine ⟨⟨hx, hy, hz⟩, hx.eval_eq.trans ?_, (hx.truth_equal hy).trans ?_, hz.eval_eq.trans ?_⟩
  · with_unfolding_all rfl
  · with_unfolding_all rfl
  · with_unfolding_all rfl

end TreeScript
