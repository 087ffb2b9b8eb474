import TreeScript.Proofs.Acceptance
import TreeScript.Proofs.Numerals

/-!
# Negated literals

A minus in front of a literal becomes the sign of a number, and negates anything else.  The reader tells
numbers by their characters, and an evaluation by what can be read as one.  Where the two do not agree, on a
name made of digits, points and marks of exponents, the minus becomes a part of the name.

- `decimal?_minus`: a minus in front of a number.
- `TakesMinus`: names that a minus becomes a part of.
- `decimal_negate_literal`: what a negated literal stands for.
- `parse_minus`: the text of a literal behind a minus.
- `decimal_minus_of_parse`: what the text of a literal stands for behind a minus.
- `exists_minus_in_name`: a name that is not negated.
-/

namespace TreeScript.Number

variable {cs : List Char}

theorem splitSign_of_head? (hminus : cs.head? ≠ some '-') (hplus : cs.head? ≠ some '+') :
    splitSign cs = (false, cs) := by
  unfold splitSign
  split
  · exact absurd rfl hminus
  · exact absurd rfl hplus
  · rfl

/-- A number that has no sign yet is negated by a minus in front of it. -/
theorem decimal?_minus (hminus : cs.head? ≠ some '-') (hplus : cs.head? ≠ some '+') :
    decimal? ('-' :: cs) = (decimal? cs).map (-·) := by
  have hsign : splitSign ('-' :: cs) = (true, cs) := rfl
  simp only [decimal?, withSign, hsign, splitSign_of_head? hminus hplus, Option.map_map]
  rfl

theorem looksDecimal_minus (h : looksDecimal cs = true) : looksDecimal ('-' :: cs) = true := by
  rw [looksDecimal, Bool.and_eq_true] at h ⊢
  exact ⟨List.any_cons.trans (by rw [h.1, Bool.or_true]), List.all_cons.trans (by rw [h.2]; rfl)⟩

end TreeScript.Number

namespace TreeScript.Expr

open Text

variable {text u : String}

/-! ### What a negated literal stands for -/

theorem decimal_negative (scopes : Scopes) (e : Expr) :
    (negative e).decimal scopes = (e.decimal scopes).map (-·) := by
  rw [decimal]
  cases e.decimal scopes <;> rfl

theorem decimal_literal_of_some {x : Float} (h : Scalar.literal? u.toList = some x) (scopes : Scopes) :
    (literal u).decimal scopes = .ok x := by
  rw [decimal, h]

theorem decimal_literal_of_none (h : Scalar.literal? u.toList = none) (scopes : Scopes) :
    (literal u).decimal scopes = lookupAs scopes u Node.readDecimal 0.0 := by
  rw [decimal, h]

/-- A name that a minus becomes a part of: it has the characters of a number and no sign, and it is not a
number. -/
structure TakesMinus (u : String) : Prop where
  looksDecimal : Number.looksDecimal u.toList = true
  minus : u.toList.head? ≠ some '-'
  plus : u.toList.head? ≠ some '+'
  isName : Number.decimal? u.toList = none

instance (u : String) : Decidable (TakesMinus u) :=
  decidable_of_iff (Number.looksDecimal u.toList = true ∧ u.toList.head? ≠ some '-' ∧
      u.toList.head? ≠ some '+' ∧ Number.decimal? u.toList = none)
    ⟨fun h => ⟨h.1, h.2.1, h.2.2.1, h.2.2.2⟩, fun h => ⟨h.looksDecimal, h.minus, h.plus, h.isName⟩⟩

/-- A negated literal stands for the negative of what the literal stands for, unless the minus became a
part of a name: then it is another name. -/
theorem decimal_negate_literal (scopes : Scopes) (u : String) :
    (¬TakesMinus u → (negate (literal u)).decimal scopes = ((literal u).decimal scopes).map (-·)) ∧
    (TakesMinus u → (negate (literal u)).decimal scopes =
        lookupAs scopes ("-" ++ u) Node.readDecimal 0.0 ∧
      (literal u).decimal scopes = lookupAs scopes u Node.readDecimal 0.0) := by
  by_cases hfolds : Number.looksDecimal u.toList = true ∧ u.toList.head? ≠ some '-' ∧
      u.toList.head? ≠ some '+'
  · -- the minus goes into the literal, which is a number exactly if it was one before
    obtain ⟨hlooks, hminus, hplus⟩ := hfolds
    have hnegate : negate (literal u) = literal ("-" ++ u) := by simp [negate, hlooks, hminus, hplus]
    have hsigned : Scalar.literal? ("-" ++ u).toList = (Number.decimal? u.toList).map (-·) := by
      have hlist : ("-" ++ u).toList = '-' :: u.toList := String.toList_append
      rw [hlist, Scalar.literal?, if_pos (Number.looksDecimal_minus hlooks),
        Number.decimal?_minus hminus hplus]
    have hplain : Scalar.literal? u.toList = Number.decimal? u.toList := if_pos hlooks
    rw [hnegate]
    cases hnumber : Number.decimal? u.toList with
    | some x =>
      rw [hnumber] at hsigned hplain
      refine ⟨fun _ => ?_, fun h => absurd (h.isName.symm.trans hnumber) (by simp)⟩
      rw [decimal_literal_of_some hsigned, decimal_literal_of_some hplain]
      rfl
    | none =>
      rw [hnumber] at hsigned hplain
      exact ⟨fun h => absurd ⟨hlooks, hminus, hplus, hnumber⟩ h,
        fun _ => ⟨decimal_literal_of_none hsigned scopes, decimal_literal_of_none hplain scopes⟩⟩
  · have hnegate : negate (literal u) = negative (literal u) := by
      rw [negate, if_neg]
      simpa [and_assoc] using hfolds
    rw [hnegate]
    exact ⟨fun _ => decimal_negative scopes _,
      fun h => absurd ⟨h.looksDecimal, h.minus, h.plus⟩ hfolds⟩

/-! ### The text of a literal behind a minus -/

theorem Derives.ne_nil {cs : List Char} {us : List String} {e : Expr} (h : Derives .operand cs us e) :
    cs ≠ [] := by
  cases h with
  | token hu => exact hu.ne_nil
  | minus => exact List.cons_ne_nil _ _
  | parentheses => exact List.cons_ne_nil _ _

/-- What stands for a literal is one operand, with blanks around it. -/
theorem Derives.exists_operand {cs : List Char} {us : List String}
    (h : Derives .whole cs us (literal u)) :
    ∃ pad ds rest vs, AllBlank pad ∧ AllBlank rest ∧ cs = pad ++ (ds ++ rest) ∧
      Derives .operand ds vs (literal u) := by
  generalize hextent : Extent.whole = extent at h
  generalize hliteral : literal u = e at h
  induction h with
  | token => cases hextent
  | minus => cases hextent
  | parentheses => cases hextent
  | @single pad ds us e hpad h =>
    exact ⟨pad, ds, [], us, hpad, allBlank_nil, by rw [List.append_nil], h⟩
  | pair => cases hliteral
  | @blank cs gap us e h hgap ih =>
    obtain ⟨pad, ds, rest, vs, hpad, hrest, rfl, hoperand⟩ := ih hextent hliteral
    exact ⟨pad, ds, rest ++ gap, vs, hpad, allBlank_append.2 ⟨hrest, hgap⟩, by simp, hoperand⟩

theorem unifyLineEnds_minus {cs : List Char} (h : cs ≠ []) :
    unifyLineEnds ('-' :: cs) = '-' :: unifyLineEnds cs := by
  obtain ⟨c, cs, rfl⟩ := List.exists_cons_of_ne_nil h
  simp [unifyLineEnds]

/-- **A minus in front of the text of a literal** negates the literal. -/
theorem parse_minus (h : parse text = .ok (literal u)) :
    parse ("-" ++ text) = .ok (negate (literal u)) := by
  obtain ⟨us, hus⟩ := derives_of_parse h
  obtain ⟨pad, cs, rest, vs, hpad, hrest, hcs, hoperand⟩ := hus.exists_operand
  have hne : text.toList ≠ [] := by
    intro hnil
    rw [hnil, unifyLineEnds, eq_comm, List.append_eq_nil_iff, List.append_eq_nil_iff] at hcs
    exact hoperand.ne_nil hcs.2.1
  have htext : unifyLineEnds ("-" ++ text).toList = '-' :: (pad ++ cs) ++ rest := by
    rw [String.toList_append]
    show unifyLineEnds ('-' :: text.toList) = _
    rw [unifyLineEnds_minus hne, hcs]
    simp
  refine parse_eq_ok_iff.2 ⟨vs, ?_⟩
  rw [htext]
  exact .blank (.single allBlank_nil (.minus hpad hoperand)) hrest

/-- **A minus negates a literal**: where the text of a literal is accepted, so it is behind a minus, and it
stands for the negative of the same number or for the same error; but where the minus becomes a part of a
name, it stands for what the other name stands for. -/
theorem decimal_minus_of_parse (h : parse text = .ok (literal u)) (scopes : Scopes) :
    ∃ e, parse ("-" ++ text) = .ok e ∧
      (¬TakesMinus u → e.decimal scopes = ((literal u).decimal scopes).map (-·)) ∧
      (TakesMinus u → e.decimal scopes = lookupAs scopes ("-" ++ u) Node.readDecimal 0.0 ∧
        (literal u).decimal scopes = lookupAs scopes u Node.readDecimal 0.0) :=
  ⟨_, parse_minus h, decimal_negate_literal scopes u⟩

theorem decimal_minus_of_parse_sample :
    let scopes : Scopes := ⟨.ofList [.leaf "hp" (.integer 12)], none⟩
    parse " hp" = .ok (literal "hp") ∧ ¬TakesMinus "hp" ∧
      ∃ e, parse "- hp" = .ok e ∧ e.decimal scopes = .ok (-12.0) := by
  intro scopes
  have hparse : parse " hp" = .ok (literal "hp") := by with_unfolding_all rfl
  have hname : ¬TakesMinus "hp" := by decide
  obtain ⟨e, hminus, hvalue, -⟩ := decimal_minus_of_parse hparse scopes
  refine ⟨hparse, hname, e, hminus, (hvalue hname).trans ?_⟩
  with_unfolding_all rfl

/-- **Not every minus negates**: a digit and the mark of an exponent are the characters of a number, so the
minus becomes a part of the name, and the name behind it is not looked up. -/
theorem exists_minus_in_name :
    let scopes : Scopes := ⟨.ofList [.leaf "1e" (.integer 5)], none⟩
    parse "1e" = .ok (literal "1e") ∧ (literal "1e").decimal scopes = .ok 5.0 ∧
      parse "-1e" = .ok (literal "-1e") ∧ (literal "-1e").decimal scopes = .ok 0.0 ∧
      (0.0 : Float) ≠ -5.0 := by
  intro scopes
  refine ⟨?_, ?_, ?_, ?_, ?_⟩
  · with_unfolding_all rfl
  · with_unfolding_all rfl
  · with_unfolding_all rfl
  · with_unfolding_all rfl
  · with_unfolding_all decide

end TreeScript.Expr
