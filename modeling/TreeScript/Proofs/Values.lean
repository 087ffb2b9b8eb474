import TreeScript.Proofs.Evaluation
import TreeScript.Proofs.Floats
import TreeScript.Proofs.Negation

/-!
# Printed values as expressions

A printed value is a literal, and evaluates to the value again: truth values, integers that a float can hold,
and floats, as long as no exponent is written with a minus.  A minus ends a token, so a text with such an
exponent is a difference: of the name in front of the minus, and of the exponent.

- `FloatText`, `floatText_positive`: how a float is written.
- `decimal?_mark`: a text that ends with the mark of an exponent is no number.
- `isLiteral_of_unsigned`: numbers with at most a sign in front are literals.
- `parse_difference`: two literals with a minus between them.
- `eval_written`: what a printed value is read as.
- `exists_not_read_back`: a value that is not read back.
-/

namespace TreeScript.Number

variable {cs digits : List Char}

/-! ### How floats are written -/

/-- A text of the characters of numbers without a sign. -/
def IsUnsigned (cs : List Char) : Prop := ∀ c ∈ cs, c.isDigit = true ∨ c ∈ ['.', 'e', 'E']

theorem isUnsigned_append {cs ds : List Char} :
    IsUnsigned (cs ++ ds) ↔ IsUnsigned cs ∧ IsUnsigned ds := by
  simp only [IsUnsigned, List.mem_append, or_imp, forall_and]

theorem isUnsigned_mark : IsUnsigned ['e'] := by
  intro c hc
  exact Or.inr (by simp_all)

theorem isUnsigned_toDigits (n : Nat) : IsUnsigned (Nat.toDigits 10 n) :=
  fun _ hc => Or.inl (isDigit_of_mem_toDigits hc)

theorem IsUnsigned.not_mem (h : IsUnsigned cs) : '-' ∉ cs ∧ '+' ∉ cs := by
  constructor
  · intro hmem
    exact absurd (h _ hmem) (by decide)
  · intro hmem
    exact absurd (h _ hmem) (by decide)

theorem IsUnsigned.isNumeral (h : IsUnsigned cs) : IsNumeral cs := by
  have hmarks : ['.', 'e', 'E'].all (fun c => decide (c ∈ numeralChars)) = true := by decide
  exact fun c hc => (h c hc).elim mem_numeralChars_of_isDigit fun hc =>
    of_decide_eq_true (List.all_eq_true.1 hmarks c hc)

/-- What stands in front of the exponent of a float: digits, with at most a point among them. -/
structure IsMantissa (cs : List Char) : Prop where
  char : ∀ c ∈ cs, c.isDigit = true ∨ c = '.'
  digit : ∃ c ∈ cs, c.isDigit = true

theorem IsMantissa.isUnsigned (h : IsMantissa cs) : IsUnsigned cs := by
  intro c hc
  exact (h.char c hc).imp_right fun heq => by simp [heq]

/-- How a positive float is written: with a point alone, or with an exponent. -/
inductive FloatText : List Char → Prop
  | plain {cs : List Char} (h : IsMantissa cs) : FloatText cs
  | large {cs : List Char} (h : IsMantissa cs) (n : Nat) : FloatText (cs ++ 'e' :: Nat.toDigits 10 n)
  | small {cs : List Char} (h : IsMantissa cs) (n : Nat) :
    FloatText (cs ++ 'e' :: '-' :: Nat.toDigits 10 n)

theorem isMantissa_plain (hdigits : ∀ c ∈ digits, c.isDigit = true) (leading : Int) :
    IsMantissa (Layout.plain digits leading) where
  digit := (isDecimal_plain hdigits leading).digit
  char := by
    have hzero : ∀ {n : Nat} {c : Char}, c ∈ Layout.zeros n → c.isDigit = true := by
      intro n c hc
      rw [List.eq_of_mem_replicate hc]
      decide
    intro c hc
    rw [Layout.plain] at hc
    split at hc
    · have hlead : "0.".toList = ['0', '.'] := rfl
      rw [hlead, List.mem_append, List.mem_append] at hc
      rcases hc with (hc | hc) | hc
      · simp only [List.mem_cons, List.not_mem_nil, or_false] at hc
        exact hc.imp_left fun heq => by rw [heq]; decide
      · exact Or.inl (hzero hc)
      · exact Or.inl (hdigits c hc)
    · simp only [List.mem_append, List.mem_cons] at hc
      rcases hc with (hc | hc) | hc | hc
      · exact Or.inl (hdigits c (List.mem_of_mem_take hc))
      · exact Or.inl (hzero hc)
      · exact Or.inr hc
      · refine Or.inl ?_
        split at hc
        · rw [List.mem_singleton.1 hc]
          decide
        · exact hdigits c (List.mem_of_mem_drop hc)

theorem floatText_scientific (hdigits : ∀ c ∈ digits, c.isDigit = true) (hne : digits ≠ [])
    (leading : Int) : FloatText (Layout.value.scientific digits leading) := by
  obtain ⟨first, more, rfl⟩ := List.exists_cons_of_ne_nil hne
  -- a point is put behind the first digit if there are others
  obtain ⟨mantissa, hmantissa, hscientific⟩ : ∃ mantissa, IsMantissa mantissa ∧
      Layout.value.scientific (first :: more) leading = mantissa ++
        'e' :: (if leading < 0 then "-" else "").toList ++ Nat.toDigits 10 leading.natAbs := by
    cases more with
    | nil => exact ⟨[first], ⟨fun c hc => Or.inl (hdigits c hc), first, by simp, hdigits first (by simp)⟩, rfl⟩
    | cons second more =>
      refine ⟨first :: '.' :: second :: more, ⟨?_, first, by simp, hdigits first (by simp)⟩, rfl⟩
      intro c hc
      by_cases hpoint : c = '.'
      · exact Or.inr hpoint
      · exact Or.inl (hdigits c (by simpa [hpoint] using hc))
  rw [hscientific]
  split
  · have hsmall := FloatText.small hmantissa leading.natAbs
    simpa using hsmall
  · have hlarge := FloatText.large hmantissa leading.natAbs
    simpa using hlarge

theorem floatText_positive (d : Decimal) : FloatText (Layout.value.positive d) := by
  have hdigits : ∀ c ∈ Nat.toDigits 10 d.digits, c.isDigit = true := fun c hc =>
    isDigit_of_mem_toDigits hc
  rw [Layout.positive]
  split
  · exact .plain (isMantissa_plain hdigits _)
  · exact floatText_scientific hdigits Nat.toDigits_ne_nil _

/-- A finite float is written as a positive one, or as one behind a minus. -/
theorem exists_floatText {x : Float} (h : isFinite x = true) :
    ∃ sign cs, (sign = [] ∨ sign = ['-']) ∧ FloatText cs ∧ Layout.value.render x = sign ++ cs := by
  obtain ⟨sign, cs, hsign, hcs, hrender⟩ := exists_render h
  refine ⟨sign, cs, hsign, ?_, hrender⟩
  rcases hcs with rfl | ⟨d, rfl⟩
  · have hchars : "0.0".toList.all (fun c => c.isDigit || decide (c = '.')) = true := by decide
    exact .plain ⟨fun c hc => by simpa using List.all_eq_true.1 hchars c hc, '0', by decide, by decide⟩
  · exact floatText_positive d

/-! ### What is no number -/

/-- A text that ends with the mark of an exponent has no exponent. -/
theorem exponent?_mark (cs : List Char) : exponent? (cs ++ ['e']) = none := by
  cases cs with
  | nil => rfl
  | cons c cs =>
    have hnone : signed? (cs ++ ['e']) = none :=
      signed?_eq_none_of_mem (List.mem_append_right _ (List.mem_singleton.2 rfl)) (by decide) (by decide)
    rw [List.cons_append, exponent?, hnone, ite_self]

theorem dropWhile_isDigit_mark (cs : List Char) :
    (cs ++ ['e']).dropWhile Char.isDigit = cs.dropWhile Char.isDigit ++ ['e'] := by
  rw [List.dropWhile_append]
  split
  · next hnil =>
    rw [List.isEmpty_iff.1 hnil]
    rfl
  · rfl

theorem exists_splitFraction_mark (cs : List Char) :
    ∃ ds, (splitFraction (cs ++ ['e'])).2 = ds ++ ['e'] := by
  fun_cases splitFraction cs with
  | case1 cs => exact ⟨_, dropWhile_isDigit_mark cs⟩
  | case2 cs hpoint =>
    refine ⟨cs, ?_⟩
    cases cs with
    | nil => rfl
    | cons c cs =>
      have hne : c ≠ '.' := fun heq => hpoint cs (by rw [heq])
      rw [List.cons_append, splitFraction]
      rintro ds heq
      exact hne (List.cons.inj heq).1

/-- A text that ends with the mark of an exponent is no number. -/
theorem decimal?_mark (cs : List Char) : decimal? (cs ++ ['e']) = none := by
  have hunsigned : ∀ cs, unsignedDecimal? (cs ++ ['e']) = none := by
    intro cs
    obtain ⟨ds, hds⟩ := exists_splitFraction_mark (cs.dropWhile Char.isDigit)
    rw [unsignedDecimal?, dropWhile_isDigit_mark]
    simp only [hds, exponent?_mark, Option.map_none, ite_self]
  obtain ⟨ds, hds⟩ : ∃ ds, (splitSign (cs ++ ['e'])).2 = ds ++ ['e'] := by
    fun_cases splitSign cs with
    | case1 cs => exact ⟨cs, rfl⟩
    | case2 cs => exact ⟨cs, rfl⟩
    | case3 cs hminus hplus =>
      refine ⟨cs, ?_⟩
      have hhead : ∀ c, c ≠ 'e' → (∀ ds, cs ≠ c :: ds) → (cs ++ ['e']).head? ≠ some c := by
        intro c hc hne
        cases cs with
        | nil => simpa using hc.symm
        | cons d ds => simpa using fun heq => hne ds (by rw [heq])
      rw [splitSign_of_head? (hhead '-' (by decide) hminus) (hhead '+' (by decide) hplus)]
  rw [decimal?, withSign]
  simp only [hds, hunsigned, Option.map_none]

/-! ### Integers -/

theorem unsignedDecimal?_toDigits (n : Nat) :
    unsignedDecimal? (Nat.toDigits 10 n) = some (nearest n 0) := by
  have hall : ∀ c ∈ Nat.toDigits 10 n, c.isDigit = true := fun c hc => isDigit_of_mem_toDigits hc
  have htake : (Nat.toDigits 10 n).takeWhile Char.isDigit = Nat.toDigits 10 n :=
    List.takeWhile_eq_self_iff.2 hall
  have hdrop : (Nat.toDigits 10 n).dropWhile Char.isDigit = [] := List.dropWhile_eq_nil_iff.2 hall
  have hne : (Nat.toDigits 10 n).isEmpty = false := List.isEmpty_eq_false_iff.2 Nat.toDigits_ne_nil
  rw [unsignedDecimal?, htake, hdrop]
  simp [splitFraction, exponent?, hne, digitsValue_toDigits]

/-- The decimal number that a written integer is read as. -/
theorem decimal?_toString (n : Int) :
    decimal? (toString n).toList =
      some (if 0 ≤ n then nearest n.natAbs 0 else -nearest n.natAbs 0) := by
  have hdigits : decimal? (Nat.toDigits 10 n.natAbs) = some (nearest n.natAbs 0) := by
    rw [decimal?, withSign, splitSign_of_isDigit fun c hc =>
      isDigit_of_mem_toDigits (List.mem_of_mem_head? hc)]
    simp [unsignedDecimal?_toDigits]
  rw [toList_toString_int]
  split
  · exact hdigits
  · have hhead : ∀ c : Char, c.isDigit = false → (Nat.toDigits 10 n.natAbs).head? ≠ some c := by
      intro c hc heq
      have hdigit : c.isDigit = true := isDigit_of_mem_toDigits (List.mem_of_mem_head? heq)
      simp [hc] at hdigit
    show decimal? ('-' :: Nat.toDigits 10 n.natAbs) = _
    rw [decimal?_minus (hhead '-' (by decide)) (hhead '+' (by decide)), hdigits]
    rfl

theorem exists_digit (n : Nat) : ∃ c ∈ Nat.toDigits 10 n, c.isDigit = true := by
  obtain ⟨c, hc⟩ := List.exists_mem_of_ne_nil _ (Nat.toDigits_ne_nil (n := n) (b := 10))
  exact ⟨c, hc, isDigit_of_mem_toDigits hc⟩

theorem literal?_toString (n : Int) :
    Scalar.literal? (toString n).toList =
      some (if 0 ≤ n then nearest n.natAbs 0 else -nearest n.natAbs 0) := by
  have hdigit : ∃ c ∈ (toString n).toList, c.isDigit = true := by
    obtain ⟨c, hc, hdigit⟩ := exists_digit n.natAbs
    exact ⟨c, by rw [toList_toString_int]; exact List.mem_append_right _ hc, hdigit⟩
  rw [Scalar.literal?, if_pos (looksDecimal_of_isNumeral (isNumeral_toString n) hdigit),
    decimal?_toString]

/-- An integer that a float can hold is still there when its nearest float is cut down to an integer. -/
theorem truncate?_nearest_toInt {n : Int64} (h : n.toInt.natAbs ≤ 2 ^ 53) :
    truncate? (if 0 ≤ n.toInt then nearest n.toInt.natAbs 0 else -nearest n.toInt.natAbs 0) = some n := by
  rw [← int64?_toInt n]
  split
  · have habs : (n.toInt.natAbs : Int) = n.toInt := by omega
    rw [(truncate?_nearest h).1, habs]
  · have habs : -(n.toInt.natAbs : Int) = n.toInt := by omega
    rw [(truncate?_nearest h).2, habs]

end TreeScript.Number

namespace TreeScript.Expr

open Text Number

variable {text u v : String}

/-! ### Literals -/

/-- A text without signs and blanks is a token. -/
theorem isToken_of_isUnsigned (hne : u.toList ≠ []) (h : IsUnsigned u.toList) : IsToken u where
  ne_nil := hne
  char := by
    have hall : numeralChars.all (fun c => decide (c ≠ '-' → c ≠ '+' →
        isBlank c = false ∧ c ∉ tokenStops ∧ c ≠ '(' ∧ c ≠ ')')) = true := by decide
    intro c hc
    exact of_decide_eq_true (List.all_eq_true.1 hall c (h.isNumeral c hc))
      (ne_of_mem_of_not_mem hc h.not_mem.1) (ne_of_mem_of_not_mem hc h.not_mem.2)

/-- **Numbers are literals**, also behind a minus, if there is no other sign in them. -/
theorem isLiteral_of_unsigned {sign cs : List Char} (htext : text.toList = sign ++ cs)
    (hsign : sign = [] ∨ sign = ['-']) (hcs : IsUnsigned cs) (hdigit : ∃ c ∈ cs, c.isDigit = true) :
    IsLiteral text := by
  have hne : cs ≠ [] := by
    obtain ⟨c, hc, -⟩ := hdigit
    exact List.ne_nil_of_mem hc
  have htoken : ∀ u : String, u.toList = cs → IsToken u := by
    rintro u rfl
    exact isToken_of_isUnsigned hne hcs
  rcases hsign with rfl | rfl
  · exact Or.inl (htoken text htext)
  · refine Or.inr ⟨String.ofList cs, ?_, htoken _ String.toList_ofList, ?_⟩
    · have hminus : ("-" : String).toList = ['-'] := rfl
      rw [← String.toList_inj, htext, String.toList_append, hminus, String.toList_ofList]
    · rw [String.toList_ofList]
      exact looksDecimal_of_isNumeral hcs.isNumeral hdigit

theorem parse_of_isLiteral (h : IsLiteral u) : parse u = .ok (literal u) := by
  have hprintable : (literal u).Printable := h
  exact parse_of_printable hprintable

/-- **Two literals with a minus between them** are a difference. -/
theorem parse_difference (hu : IsLiteral u) (hv : IsLiteral v) :
    parse (u ++ "-" ++ v) = .ok (binary .minus (literal u) (literal v)) := by
  obtain ⟨us, hleft⟩ := derives_of_isLiteral hu
  obtain ⟨vs, hright⟩ := derives_of_isLiteral hv
  have hlist : (u ++ "-" ++ v).toList = u.toList ++ '-' :: v.toList := by simp
  have hreturn : '\r' ∉ (u ++ "-" ++ v).toList := by
    have hne : ∀ {w : String}, IsLiteral w → '\r' ∉ w.toList := fun hw hmem =>
      absurd (hw.char '\r' hmem).1 (by decide)
    rw [hlist, List.mem_append, List.mem_cons, not_or, not_or]
    exact ⟨hne hu, by decide, hne hv⟩
  obtain ⟨ending, hending, hline⟩ := endLine_eq_append (u ++ "-" ++ v).toList
  have hsign : Operator.minus.IsSign ['-'] := ⟨'-', rfl, Or.inl rfl⟩
  refine parse_eq_ok_iff.2 ⟨us ++ vs, ?_⟩
  rw [unifyLineEnds_of_not_mem hreturn, hline, hlist]
  exact .blank (.pair (.single allBlank_nil hleft) hsign allBlank_nil hright) hending

end TreeScript.Expr

namespace TreeScript.Value

open TreeScript.Number TreeScript.Expr

/-! ### Printed values -/

variable {v : Value}

/-- The values that can be read back from their texts: all truth values, the integers that a float can
hold, and the finite floats.  That a float is what its own text is read as is what the text is made for. -/
def Exact : Value → Prop
  | integer n => n.toInt.natAbs ≤ 2 ^ 53
  | decimal x => isFinite x = true ∧ ReadsBack x
  | boolean _ => True

theorem not_isInfix_of_unsigned {sign cs : List Char} (hsign : sign = [] ∨ sign = ['-'])
    (hcs : IsUnsigned cs) : ¬['e', '-'] <:+: sign ++ cs := by
  rintro ⟨front, back, heq⟩
  rcases hsign with rfl | rfl
  · refine hcs.not_mem.1 ?_
    rw [← List.nil_append cs, ← heq]
    simp
  · cases front with
    | nil => exact absurd (List.cons.inj heq).1 (by decide)
    | cons c front =>
      have hrest : front ++ ['e', '-'] ++ back = cs := (List.cons.inj heq).2
      refine hcs.not_mem.1 ?_
      rw [← hrest]
      simp

/-- A text with at most a sign in front is a literal, and has no other sign. -/
theorem isLiteral_and_not_isInfix {text : String} {sign cs : List Char}
    (htext : text.toList = sign ++ cs) (hsign : sign = [] ∨ sign = ['-']) (hcs : IsUnsigned cs)
    (hdigit : ∃ c ∈ cs, c.isDigit = true) : IsLiteral text ∧ ¬['e', '-'] <:+: text.toList := by
  refine ⟨isLiteral_of_unsigned htext hsign hcs hdigit, ?_⟩
  rw [htext]
  exact not_isInfix_of_unsigned hsign hcs

theorem isLiteral_toString (n : Int) :
    IsLiteral (toString n) ∧ ¬['e', '-'] <:+: (toString n).toList := by
  have hsign : (if 0 ≤ n then [] else ['-']) = [] ∨ (if 0 ≤ n then [] else ['-']) = ['-'] := by
    split
    · exact Or.inl rfl
    · exact Or.inr rfl
  exact isLiteral_and_not_isInfix (toList_toString_int n) hsign (isUnsigned_toDigits _) (exists_digit _)

/-- A printed value is a literal, or it has an exponent with a minus and is the difference of a name and
a number. -/
theorem written_cases (hv : v.Exact) :
    IsLiteral v.written ∧ ¬['e', '-'] <:+: v.written.toList ∨
    ['e', '-'] <:+: v.written.toList ∧ v.domain = .decimal ∧ ∃ (name : String) (n : Nat),
      IsLiteral name ∧ ['e'] <:+ name.toList ∧ v.written = name ++ "-" ++ toString n := by
  cases v with
  | integer n => exact Or.inl (isLiteral_toString n.toInt)
  | boolean b =>
    left
    cases b with
    | false => exact ⟨Or.inl (by decide), by decide⟩
    | true => exact ⟨Or.inl (by decide), by decide⟩
  | decimal x =>
    obtain ⟨sign, cs, hsign, hcs, hrender⟩ := exists_floatText hv.1
    have htext : (decimal x).written.toList = sign ++ cs := (Scalar.toList_decimalText x).trans hrender
    cases hcs with
    | @plain cs h => exact Or.inl (isLiteral_and_not_isInfix htext hsign h.isUnsigned h.digit)
    | @large cs h n =>
      have hunsigned : IsUnsigned (cs ++ 'e' :: Nat.toDigits 10 n) :=
        isUnsigned_append.2 ⟨h.isUnsigned, isUnsigned_append.2 ⟨isUnsigned_mark, isUnsigned_toDigits n⟩⟩
      obtain ⟨c, hc, hdigit⟩ := h.digit
      exact Or.inl (isLiteral_and_not_isInfix htext hsign hunsigned
        ⟨c, List.mem_append_left _ hc, hdigit⟩)
    | @small cs h n =>
      -- the name takes the mark of the exponent, and the minus behind it is the operator
      have hname : IsUnsigned (cs ++ ['e']) := isUnsigned_append.2 ⟨h.isUnsigned, isUnsigned_mark⟩
      obtain ⟨c, hc, hdigit⟩ := h.digit
      right
      refine ⟨?_, rfl, String.ofList (sign ++ (cs ++ ['e'])), n, ?_, ?_, ?_⟩
      · rw [htext]
        exact ⟨sign ++ cs, Nat.toDigits 10 n, by simp⟩
      · exact isLiteral_of_unsigned String.toList_ofList hsign hname
          ⟨c, List.mem_append_left _ hc, hdigit⟩
      · rw [String.toList_ofList]
        exact ⟨sign ++ cs, by simp⟩
      · rw [← String.toList_inj, htext]
        simp

/-- **A printed value is a literal of the value**, in its own domain. -/
theorem eval_literal_written (hv : v.Exact) (scopes : Scopes) :
    TypedExpr.eval scopes ⟨literal v.written, v.domain⟩ = .ok v := by
  cases v with
  | integer n =>
    have hdecimal : (literal (integer n).written).decimal scopes = _ :=
      decimal_literal_of_some (literal?_toString n.toInt) scopes
    show Except.map integer _ = _
    rw [integer_of_truncate? hdecimal (truncate?_nearest_toInt hv)]
    rfl
  | decimal x =>
    have hliteral : Scalar.literal? (decimal x).written.toList = some x := by
      show Scalar.literal? (Scalar.decimalText x).toList = _
      rw [Scalar.toList_decimalText, Scalar.literal?_render hv.1 hv.2]
    show Except.map decimal _ = _
    rw [decimal_literal_of_some hliteral]
    rfl
  | boolean b =>
    have htruth : truthLiteral? (boolean b).written = some b := by
      cases b with
      | false => with_unfolding_all rfl
      | true => with_unfolding_all rfl
    show Except.map boolean _ = _
    rw [truth, htruth]
    rfl

/-- A number that is taken from a name without a node is taken from zero. -/
theorem eval_difference {name : String} (hname : ['e'] <:+ name.toList) (n : Nat) {scopes : Scopes}
    (hlookup : scopes.lookup name = none) :
    TypedExpr.eval scopes ⟨binary .minus (literal name) (literal (toString n)), .decimal⟩ =
      .ok (.decimal (0.0 - nearest n 0)) := by
  have hleft : (literal name).decimal scopes = .ok 0.0 := by
    obtain ⟨cs, hcs⟩ := hname
    have hnone : Scalar.literal? name.toList = none := by
      rw [Scalar.literal?, ← hcs, decimal?_mark, ite_self]
    rw [decimal_literal_of_none hnone, lookupAs, hlookup]
  have hright : (literal (toString n)).decimal scopes = .ok (nearest n 0) :=
    decimal_literal_of_some (literal?_toString n) scopes
  show Except.map decimal _ = _
  rw [Expr.decimal, hleft, hright]
  rfl

/-- **What a printed value is read as.**  It is read as a literal of the same value in its domain, whatever
the scopes are; but if it has an exponent with a minus, it is read as a difference instead, of a name that
ends with the mark of the exponent and of a number. -/
theorem eval_written (hv : v.Exact) :
    (¬['e', '-'] <:+: v.written.toList → parse v.written = .ok (literal v.written) ∧
      ∀ scopes, TypedExpr.eval scopes ⟨literal v.written, v.domain⟩ = .ok v) ∧
    (['e', '-'] <:+: v.written.toList → ∃ (name : String) (n : Nat),
      v.written = name ++ "-" ++ toString n ∧
      parse v.written = .ok (binary .minus (literal name) (literal (toString n))) ∧
      ∀ scopes : Scopes, scopes.lookup name = none →
        TypedExpr.eval scopes ⟨binary .minus (literal name) (literal (toString n)), v.domain⟩ =
          .ok (.decimal (0.0 - nearest n 0))) := by
  rcases written_cases hv with ⟨hliteral, hnone⟩ | ⟨hsome, hdomain, name, n, hname, hmark, htext⟩
  · exact ⟨fun _ => ⟨parse_of_isLiteral hliteral, eval_literal_written hv⟩, fun h => absurd h hnone⟩
  · refine ⟨fun h => absurd hsome h, fun _ => ⟨name, n, htext, ?_, fun scopes hlookup => ?_⟩⟩
    · rw [htext]
      exact parse_difference hname (isLiteral_toString n).1
    · rw [hdomain]
      exact eval_difference hmark n hlookup

theorem eval_written_sample :
    (Value.decimal (-2.5e20)).Exact ∧ ¬['e', '-'] <:+: (Value.decimal (-2.5e20)).written.toList ∧
      parse (Value.decimal (-2.5e20)).written = .ok (literal (Value.decimal (-2.5e20)).written) ∧
      ∀ scopes, TypedExpr.eval scopes ⟨literal (Value.decimal (-2.5e20)).written, .decimal⟩ =
        .ok (.decimal (-2.5e20)) := by
  have hexact : (Value.decimal (-2.5e20)).Exact := ⟨by with_unfolding_all rfl, by with_unfolding_all rfl⟩
  have hlarge : ¬['e', '-'] <:+: (Value.decimal (-2.5e20)).written.toList := by with_unfolding_all decide
  exact ⟨hexact, hlarge, (eval_written hexact).1 hlarge⟩

/-- **Not every printed value is read back**: the text of a small float has an exponent with a minus, and
the minus ends the token in front of it. -/
theorem exists_not_read_back :
    (Value.decimal 1e-7).Exact ∧ (Value.decimal 1e-7).written = "1e-7" ∧
      parse "1e-7" = .ok (binary .minus (literal "1e") (literal "7")) ∧
      TypedExpr.eval ⟨.empty, none⟩ ⟨binary .minus (literal "1e") (literal "7"), .decimal⟩ =
        .ok (.decimal (-7.0)) ∧
      (1e-7 : Float) ≠ -7.0 := by
  refine ⟨⟨?_, ?_⟩, ?_, ?_, ?_, ?_⟩
  · with_unfolding_all rfl
  · with_unfolding_all rfl
  · with_unfolding_all rfl
  · with_unfolding_all rfl
  · have hvalue : (binary .minus (literal "1e") (literal "7")).decimal ⟨.empty, none⟩ = .ok (-7.0) := by
      with_unfolding_all rfl
    show ((binary .minus (literal "1e") (literal "7")).decimal ⟨.empty, none⟩).map Value.decimal = _
    rw [hvalue]
    rfl
  · with_unfolding_all decide

end TreeScript.Value
