import TreeScript.Proofs.Text
import TreeScript.Scalar

/-!
# Written numbers

Integers are written in digits with a sign, floats with a point or an exponent besides.  The
characters of a written number are all that a reader of texts needs to know; that an integer reads
back is proved, and that a float does is the property `ReadsBack`, which is what the shortest digits
are for.

- `integer?_toString`: an integer reads back.
- `IsNumeral`: texts of the characters of numbers, which have no blanks and no delimiters.
- `exists_render`: the parts of a written float.
- `IsDecimal`, `isDecimal_render`: what all written floats have in common.
- `infer_integer`, `infer_decimalText`: the scalar that a written number stands for.
-/

namespace TreeScript.Number

/-! ### Integers -/

theorem digitsValue_toDigits (n : Nat) : digitsValue (Nat.toDigits 10 n) = n :=
  Nat.ofDigitChars_toDigits (by decide) (by decide)

theorem isDigit_of_mem_toDigits {n : Nat} {c : Char} (h : c ∈ Nat.toDigits 10 n) :
    c.isDigit = true :=
  Nat.isDigit_of_mem_toDigits (by decide) (by decide) h

theorem natural?_toDigits (n : Nat) : natural? (Nat.toDigits 10 n) = some n := by
  have hall : (Nat.toDigits 10 n).all Char.isDigit = true :=
    List.all_eq_true.2 fun c hc => isDigit_of_mem_toDigits hc
  rw [natural?, hall, digitsValue_toDigits]
  simp [Nat.toDigits_ne_nil]

/-- A text that starts with a digit has no sign. -/
theorem splitSign_of_isDigit {cs : List Char} (h : ∀ c ∈ cs.head?, c.isDigit = true) :
    splitSign cs = (false, cs) := by
  cases cs with
  | nil => rfl
  | cons c cs =>
    have hc : c.isDigit = true := h c rfl
    unfold splitSign
    split
    · next heq =>
      obtain ⟨rfl, -⟩ := List.cons.inj heq
      exact absurd hc (by decide)
    · next heq =>
      obtain ⟨rfl, -⟩ := List.cons.inj heq
      exact absurd hc (by decide)
    · rfl

/-- An integer is written as the digits of its size, behind a minus if it is negative. -/
theorem toList_toString_int (n : Int) :
    (toString n).toList = (if 0 ≤ n then [] else ['-']) ++ Nat.toDigits 10 n.natAbs := by
  rw [Int.toString_eq_repr, Int.repr_eq_if]
  split
  · have : n.toNat = n.natAbs := by omega
    rw [Nat.toList_repr, this, List.nil_append]
  · have : (-n).toNat = n.natAbs := by omega
    rw [String.toList_append, Nat.toList_repr, this]
    rfl

theorem signed?_toString (n : Int) : signed? (toString n).toList = some n := by
  rw [toList_toString_int]
  by_cases h : 0 ≤ n
  · rw [if_pos h, List.nil_append, signed?, splitSign_of_isDigit fun c hc =>
      isDigit_of_mem_toDigits (List.mem_of_mem_head? hc)]
    simp [natural?_toDigits, Int.natAbs_of_nonneg h]
  · rw [if_neg h]
    have hsplit : splitSign ('-' :: Nat.toDigits 10 n.natAbs) =
        (true, Nat.toDigits 10 n.natAbs) := rfl
    have hneg : -(n.natAbs : Int) = n := by omega
    rw [List.singleton_append, signed?, hsplit]
    simp only [natural?_toDigits]
    exact congrArg some hneg

theorem int64?_toInt (n : Int64) : int64? n.toInt = some n := by
  rw [int64?, if_pos ⟨Int64.minValue_le_toInt n, Int64.toInt_le n⟩, Int64.ofInt_toInt]

/-- An integer reads back. -/
theorem integer?_toString (n : Int64) : integer? (toString n.toInt).toList = some n := by
  rw [integer?, signed?_toString, Option.bind_some, int64?_toInt]

/-! ### Characters of numbers -/

/-- The characters that a decimal literal may have. -/
def numeralChars : List Char :=
  ['0', '1', '2', '3', '4', '5', '6', '7', '8', '9', '+', '-', '.', 'e', 'E']

/-- A text of such characters only. -/
def IsNumeral (cs : List Char) : Prop := ∀ c ∈ cs, c ∈ numeralChars

instance : DecidablePred IsNumeral := fun cs =>
  decidable_of_iff (cs.all fun c => decide (c ∈ numeralChars)) (by simp [IsNumeral])

theorem mem_numeralChars_of_isDigit {c : Char} (h : c.isDigit = true) : c ∈ numeralChars := by
  simp only [Char.isDigit, Bool.and_eq_true, decide_eq_true_eq, ge_iff_le] at h
  have hlow : 48 ≤ c.toNat := h.1
  have hhigh : c.toNat ≤ 57 := h.2
  have hall : ∀ n < 58, 48 ≤ n → Char.ofNat n ∈ numeralChars := by decide
  rw [← Char.ofNat_toNat c]
  exact hall _ (by omega) hlow

theorem isNumeral_append {cs ds : List Char} :
    IsNumeral (cs ++ ds) ↔ IsNumeral cs ∧ IsNumeral ds := by
  simp [IsNumeral, or_imp, forall_and]

theorem isNumeral_cons {c : Char} {cs : List Char} :
    IsNumeral (c :: cs) ↔ c ∈ numeralChars ∧ IsNumeral cs := by
  simp [IsNumeral]

theorem isNumeral_of_forall_isDigit {cs : List Char} (h : ∀ c ∈ cs, c.isDigit = true) :
    IsNumeral cs :=
  fun c hc => mem_numeralChars_of_isDigit (h c hc)

theorem isNumeral_toString (n : Int) : IsNumeral (toString n).toList := by
  rw [toList_toString_int, isNumeral_append]
  constructor
  · split
    · decide
    · decide
  · exact isNumeral_of_forall_isDigit fun c hc => isDigit_of_mem_toDigits hc

/-- A number has none of the characters that the readers of this library look for. -/
theorem IsNumeral.not_mem {cs : List Char} {c : Char} (h : IsNumeral cs) (hc : c ∉ numeralChars) :
    c ∉ cs :=
  fun hmem => hc (h c hmem)

theorem IsNumeral.trim_eq {cs : List Char} (h : IsNumeral cs) : Text.trim cs = cs := by
  refine Text.trim_eq_self_of_forall fun c hc => ?_
  have hblank : numeralChars.all (fun c => !Text.isBlank c) = true := by decide
  simpa using List.all_eq_true.1 hblank c (h c hc)

/-! ### Floats -/

/-- A character that is no digit and no sign keeps a text from being an integer of any size. -/
theorem signed?_eq_none_of_mem {cs : List Char} {c : Char} (h : c ∈ cs)
    (hc : c.isDigit = false) (hsign : c ≠ '-' ∧ c ≠ '+') : signed? cs = none := by
  -- the character is no sign, so it is still there when the sign is taken off
  have hmem : c ∈ (splitSign cs).2 := by
    unfold splitSign
    split <;> simp_all
  have hnone : natural? (splitSign cs).2 = none := by
    have hall : (splitSign cs).2.all Char.isDigit = false := by
      rw [List.all_eq_false]
      exact ⟨c, hmem, by simp [hc]⟩
    simp [natural?, hall]
  simp [signed?, hnone]

theorem integer?_eq_none_of_mem {cs : List Char} {c : Char} (h : c ∈ cs)
    (hc : c.isDigit = false) (hsign : c ≠ '-' ∧ c ≠ '+') : integer? cs = none := by
  rw [integer?, signed?_eq_none_of_mem h hc hsign, Option.bind_none]

theorem looksDecimal_of_isNumeral {cs : List Char} (h : IsNumeral cs)
    (hdigit : ∃ c ∈ cs, c.isDigit = true) : looksDecimal cs = true := by
  have hchars : numeralChars.all
      (fun c => c.isDigit || decide (c ∈ ['+', '-', '.', 'e', 'E'])) = true := by decide
  rw [looksDecimal, Bool.and_eq_true, List.any_eq_true, List.all_eq_true]
  exact ⟨hdigit, fun c hc => List.all_eq_true.1 hchars c (h c hc)⟩

/-- What all texts of finite floats have in common: they look like a decimal number, and like no
integer. -/
structure IsDecimal (cs : List Char) : Prop where
  isNumeral : IsNumeral cs
  /-- There is a digit. -/
  digit : ∃ c ∈ cs, c.isDigit = true
  /-- There is a point or an exponent. -/
  mark : '.' ∈ cs ∨ 'e' ∈ cs

namespace IsDecimal

variable {cs : List Char}

theorem looksDecimal (h : IsDecimal cs) : looksDecimal cs = true :=
  looksDecimal_of_isNumeral h.isNumeral h.digit

theorem integer?_eq_none (h : IsDecimal cs) : integer? cs = none := by
  rcases h.mark with hpoint | hexponent
  · exact integer?_eq_none_of_mem hpoint (by decide) (by decide)
  · exact integer?_eq_none_of_mem hexponent (by decide) (by decide)

/-- A sign in front changes nothing. -/
theorem append {sign : List Char} (hsign : IsNumeral sign) (h : IsDecimal cs) :
    IsDecimal (sign ++ cs) where
  isNumeral := isNumeral_append.2 ⟨hsign, h.isNumeral⟩
  digit := by
    obtain ⟨c, hc, hdigit⟩ := h.digit
    exact ⟨c, List.mem_append_right _ hc, hdigit⟩
  mark := h.mark.imp (List.mem_append_right _) (List.mem_append_right _)

end IsDecimal

section

variable {digits : List Char} (hdigits : ∀ c ∈ digits, c.isDigit = true) (leading : Int)

include hdigits

theorem isDecimal_plain : IsDecimal (Layout.plain digits leading) := by
  have hzeros : ∀ n, IsNumeral (Layout.zeros n) := by
    intro n c hc
    rw [List.eq_of_mem_replicate hc]
    decide
  rw [Layout.plain]
  split
  · have hlead : "0.".toList = ['0', '.'] := rfl
    rw [hlead]
    refine ⟨?_, ⟨'0', by simp, by decide⟩, Or.inl (by simp)⟩
    simp only [isNumeral_append]
    exact ⟨⟨by decide, hzeros _⟩, isNumeral_of_forall_isDigit hdigits⟩
  · -- the fraction has a digit even if there is none left for it
    obtain ⟨fraction, hfraction, hall, hne⟩ : ∃ fraction : List Char,
        (if (digits.drop (leading.toNat + 1)).isEmpty then ['0']
          else digits.drop (leading.toNat + 1)) = fraction ∧
        (∀ c ∈ fraction, c.isDigit = true) ∧ fraction ≠ [] := by
      by_cases h : (digits.drop (leading.toNat + 1)).isEmpty = true
      · exact ⟨['0'], by rw [if_pos h], List.forall_mem_singleton.2 (by decide), by decide⟩
      · rw [if_neg h]
        exact ⟨_, rfl, fun c hc => hdigits c (List.mem_of_mem_drop hc), by simpa using h⟩
    simp only [hfraction]
    obtain ⟨c, cs, rfl⟩ := List.exists_cons_of_ne_nil hne
    refine ⟨?_, ⟨c, by simp, hall c (by simp)⟩, Or.inl (by simp)⟩
    simp only [isNumeral_append, isNumeral_cons]
    refine ⟨⟨?_, hzeros _⟩, by decide, mem_numeralChars_of_isDigit (hall c (by simp)), ?_⟩
    · exact isNumeral_of_forall_isDigit fun d hd => hdigits d (List.mem_of_mem_take hd)
    · exact isNumeral_of_forall_isDigit fun d hd => hall d (by simp [hd])

theorem isDecimal_scientific : IsDecimal (Layout.value.scientific digits leading) := by
  have hall := isNumeral_of_forall_isDigit hdigits
  obtain ⟨d, hd⟩ := List.exists_mem_of_ne_nil _ (Nat.toDigits_ne_nil (n := leading.natAbs) (b := 10))
  have hdigit : d.isDigit = true := isDigit_of_mem_toDigits hd
  unfold Layout.scientific
  refine ⟨?_, ⟨d, by simp [hd], hdigit⟩, Or.inr (by simp)⟩
  simp only [isNumeral_append, isNumeral_cons]
  refine ⟨⟨?_, by decide, ?_⟩, isNumeral_of_forall_isDigit fun c hc => isDigit_of_mem_toDigits hc⟩
  · split
    · simp only [isNumeral_cons] at hall ⊢
      exact ⟨hall.1, by decide, hall.2⟩
    · exact hall
  · split
    · decide
    · decide

end

/-- A finite float is written as zero or as a positive number, behind a minus if it is negative. -/
theorem exists_render {x : Float} (h : isFinite x = true) :
    ∃ sign cs, (sign = [] ∨ sign = ['-']) ∧ (cs = "0.0".toList ∨ ∃ d, cs = Layout.value.positive d) ∧
      Layout.value.render x = sign ++ cs := by
  have hsign : (if (parts x).negative then ['-'] else []) = [] ∨
      (if (parts x).negative then ['-'] else []) = ['-'] := by
    split
    · exact Or.inr rfl
    · exact Or.inl rfl
  -- infinities and the like are not finite
  rw [isFinite] at h
  rw [Layout.render]
  split at h
  · next mantissa exponent hparts =>
    simp only [hparts]
    split
    · next heq => simp at heq
    · next heq => simp at heq
    · exact ⟨_, _, hsign, Or.inl rfl, rfl⟩
    · exact ⟨_, _, hsign, Or.inr ⟨_, rfl⟩, rfl⟩
  · simp at h

/-- The text of a finite float looks like a decimal number. -/
theorem isDecimal_render {x : Float} (h : isFinite x = true) :
    IsDecimal (Layout.value.render x) := by
  obtain ⟨sign, cs, hsign, hcs, hrender⟩ := exists_render h
  have hnumeral : IsNumeral sign := by
    rcases hsign with rfl | rfl
    · decide
    · decide
  rw [hrender]
  refine .append hnumeral ?_
  rcases hcs with rfl | ⟨d, rfl⟩
  · exact ⟨by decide, ⟨'0', by decide, by decide⟩, Or.inl (by decide)⟩
  · have hdigits : ∀ c ∈ Nat.toDigits 10 d.digits, c.isDigit = true :=
      fun c hc => isDigit_of_mem_toDigits hc
    rw [Layout.positive]
    split
    · exact isDecimal_plain hdigits _
    · exact isDecimal_scientific hdigits _

/-- A float is what its text is read as. -/
def ReadsBack (x : Float) : Prop := decimal? (Layout.value.render x) = some x

instance : DecidablePred ReadsBack := fun x =>
  inferInstanceAs (Decidable (decimal? (Layout.value.render x) = some x))

end TreeScript.Number

namespace TreeScript.Scalar

open Number

theorem toList_decimalText (x : Float) : (decimalText x).toList = Layout.value.render x := by
  simp [decimalText]

theorem literal?_render {x : Float} (hx : Number.isFinite x = true) (h : ReadsBack x) :
    literal? (Layout.value.render x) = some x := by
  rw [literal?, if_pos (isDecimal_render hx).looksDecimal, h]

/-- A written integer is read as the integer. -/
theorem infer_integer (n : Int64) : infer (toString n.toInt) = .integer n := by
  simp only [infer, (isNumeral_toString n.toInt).trim_eq, integer?_toString]

/-- A written decimal number is read as the number. -/
theorem infer_decimalText {x : Float} (hx : Number.isFinite x = true) (h : ReadsBack x) :
    infer (decimalText x) = .decimal x := by
  simp only [infer, toList_decimalText, (isDecimal_render hx).isNumeral.trim_eq,
    (isDecimal_render hx).integer?_eq_none, literal?_render hx h]

end TreeScript.Scalar
