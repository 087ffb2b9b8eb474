import TreeScript.Proofs.Floats
import TreeScript.Proofs.Numerals
import TreeScript.Proofs.RoundTrip

/-!
# Scalars that are read from what they are written as

A text that is inferred to be an integer, a finite decimal number or a text is written in such a way that it is
inferred to be the same scalar again.  A number that is too large for a float is inferred to be infinite, which
is a decimal number; but it is written as a word, and words are texts.

- `isNaN_nearest`, `isNaN_of_literal?`: what is read as a decimal number is a number, or infinite.
- `decimalText_of_not_finite`, `infer_word`: how infinite floats are written, and what that is read as.
- `WrittenBack`, `writtenBack_of_infer`: which scalars are inferred from their own text.
-/

namespace TreeScript.Number

open Float.Model Float.Model.UnpackedFloat

/-! ### Floats that are no numbers -/

theorem isNaN_unpack_packComponents {sign : Sign} {exponent : BitVec 11} {mantissa : BitVec 52}
    (h : exponent ≠ -1#11 ∨ mantissa = 0) :
    (UnpackedFloat.unpack .binary64 (packComponents .binary64 sign exponent mantissa)).isNaN = false := by
  rw [UnpackedFloat.unpack]
  simp only [unpackExponent_packComponents, unpackMantissa_packComponents]
  split
  · next hexponent =>
    have hmantissa : mantissa = 0#52 := h.resolve_left (not_not_intro hexponent)
    rw [if_pos hmantissa]
    rfl
  · split
    · split <;> rfl
    · rfl

/-- Packing does not make anything out of a number that is none. -/
theorem isNaN_pack {u : UnpackedFloat} (h : u.isNaN = false) : (Float.Model.pack u).isNaN = false := by
  show (UnpackedFloat.unpack .binary64 (UnpackedFloat.pack .binary64 u)).isNaN = false
  cases u with
  | notANumber => cases h
  | infinity sign => exact isNaN_unpack_packComponents (.inr rfl)
  | zero sign => exact isNaN_unpack_packComponents (.inr rfl)
  | finite sign m e hpos =>
    rw [UnpackedFloat.pack]
    simp only
    split
    · exact isNaN_unpack_packComponents (.inr rfl)
    · next hfits =>
      split
      · refine isNaN_unpack_packComponents (.inl fun hones => ?_)
        have := congrArg BitVec.toNat hones
        rw [BitVec.toNat_ofNat] at this
        have hvalue : (-1#11).toNat = 2047 := by decide
        omega
      · exact isNaN_unpack_packComponents (.inl (by decide))

theorem isNaN_neg {x : Float} (h : x.isNaN = false) : (-x).isNaN = false := by
  refine isNaN_pack ?_
  revert h
  show x.toModel.unpack.isNaN = false → _
  cases x.toModel.unpack <;> exact id

theorem isNaN_roundWithAccuracy (sign : Sign) (m : Nat) (e : Int) (accuracy : Accuracy) :
    (roundWithAccuracy .binary64 sign m e accuracy).isNaN = false := by
  rw [roundWithAccuracy]
  simp only
  split <;> rfl

theorem isNaN_mul : ∀ {u v : UnpackedFloat}, u.isFinite = true → v.isFinite = true →
    (UnpackedFloat.mul .binary64 u v).isNaN = false
  | .zero _, .zero _, _, _ => rfl
  | .zero _, .finite _ _ _ _, _, _ => rfl
  | .finite _ _ _ _, .zero _, _, _ => rfl
  | .finite _ _ _ _, .finite _ _ _ _, _, _ => isNaN_roundWithAccuracy _ _ _ _

/-- Finite floats other than zero, by which one can divide. -/
def isDivisor : UnpackedFloat → Bool
  | .finite _ _ _ _ => true
  | _ => false

theorem isFinite_of_isDivisor : ∀ {u : UnpackedFloat}, isDivisor u = true → u.isFinite = true
  | .finite _ _ _ _, _ => rfl

theorem isNaN_div : ∀ {u v : UnpackedFloat}, u.isFinite = true → isDivisor v = true →
    (UnpackedFloat.div .binary64 u v).isNaN = false
  | .zero _, .finite _ _ _ _, _, _ => rfl
  | .finite _ _ _ _, .finite _ _ _ _, _, _ => isNaN_roundWithAccuracy _ _ _ _

theorem isDivisor_powerOfTen :
    ∀ x ∈ Float.exactlyRepresentablePowersOfTen, isDivisor x.toModel.unpack = true := by
  with_unfolding_all decide

theorem isFinite_toFloat {n : Nat} (h : n < 2 ^ 53) : n.toUInt64.toFloat.isFinite = true := by
  rcases Nat.eq_zero_or_pos n with rfl | hpos
  · with_unfolding_all rfl
  · rw [toFloat_eq_normal hpos h]
    exact congrArg UnpackedFloat.isFinite (unpack_normal .positive (isNormal_of_lt hpos h))

theorem isNaN_scientific (m : Nat) (e : Int) :
    (UnpackedFloat.ofScientific .binary64 m e).isNaN = false := by
  rw [UnpackedFloat.ofScientific]
  split_ifs
  · rfl
  · rfl
  · rfl
  · exact isNaN_mul rfl rfl
  · exact isNaN_div rfl rfl

theorem isNaN_ofScientific (m : Nat) (s : Bool) (e : Nat) : (Float.ofScientific m s e).isNaN = false := by
  rw [Float.ofScientific]
  by_cases h : m < 2 ^ 53 ∧ e ≤ 22
  · -- a small number and a small power of ten are floats themselves
    have hsize : e < Float.exactlyRepresentablePowersOfTen.size := Nat.lt_succ_of_le h.2
    have hpower := isDivisor_powerOfTen _ (Array.getElem_mem hsize)
    rw [dif_pos h]
    cases s with
    | true => exact isNaN_pack (isNaN_div (isFinite_toFloat h.1) hpower)
    | false => exact isNaN_pack (isNaN_mul (isFinite_toFloat h.1) (isFinite_of_isDivisor hpower))
  · rw [dif_neg h]
    exact isNaN_pack (isNaN_scientific m _)

theorem isNaN_nearest (m : Nat) (e : Int) : (nearest m e).isNaN = false := by
  have hzero : (0.0 : Float).isNaN = false := isNaN_ofScientific 0 true 1
  have hinfinity : infinity.isNaN = false := by with_unfolding_all rfl
  simp only [nearest]
  split_ifs
  · exact hzero
  · exact hinfinity
  · exact hzero
  · exact isNaN_ofScientific _ _ _
  · exact isNaN_ofScientific _ _ _

theorem isNaN_of_unsignedDecimal? {cs : List Char} {x : Float} (h : unsignedDecimal? cs = some x) :
    x.isNaN = false := by
  simp only [unsignedDecimal?] at h
  split at h
  · cases h
  · obtain ⟨e, -, rfl⟩ := Option.map_eq_some_iff.1 h
    exact isNaN_nearest _ _

/-- **What is read as a decimal number is one**, or it is infinite. -/
theorem isNaN_of_decimal? {cs : List Char} {x : Float} (h : decimal? cs = some x) : x.isNaN = false := by
  rw [decimal?, withSign] at h
  obtain ⟨y, hy, rfl⟩ := Option.map_eq_some_iff.1 h
  have hnumber := isNaN_of_unsignedDecimal? hy
  split_ifs
  · exact isNaN_neg hnumber
  · exact hnumber

theorem toNat_unpackExponent (bits : BitVec 64) :
    (unpackExponent bits : BitVec Format.binary64.exponentBits).toNat = bits.toNat / 2 ^ 52 % 2 ^ 11 := by
  rw [unpackExponent, BitVec.toNat_cast, BitVec.extractLsb_toNat, Nat.shiftRight_eq_div_pow]
  rfl

theorem toNat_unpackMantissa (bits : BitVec 64) :
    (unpackMantissa bits : BitVec Format.binary64.mantissaBitsWithoutImplicit).toNat =
      bits.toNat % 2 ^ 52 := by
  rw [unpackMantissa, BitVec.toNat_cast, BitVec.extractLsb_toNat, Nat.shiftRight_zero]
  rfl

/-- The parts of a float say of it that it is no number only if it is none. -/
theorem magnitude_ne_notANumber {x : Float} (h : x.isNaN = false) :
    (parts x).magnitude ≠ .notANumber := by
  intro hmagnitude
  have hbits : x.toBits.toNat / Nat.pow 2 52 % Nat.pow 2 11 = 2047 ∧
      x.toBits.toNat % Nat.pow 2 52 ≠ 0 := by
    simp only [parts] at hmagnitude
    split_ifs at hmagnitude with hbiased hfraction
    exact ⟨hbiased, hfraction⟩
  have hexponent : (unpackExponent x.toBits.toBitVec : BitVec Format.binary64.exponentBits) = -1#11 :=
    BitVec.eq_of_toNat_eq ((toNat_unpackExponent _).trans hbits.1)
  have hmantissa : (unpackMantissa x.toBits.toBitVec :
      BitVec Format.binary64.mantissaBitsWithoutImplicit) ≠ 0#52 := by
    intro hzero
    exact hbits.2 ((toNat_unpackMantissa _).symm.trans (congrArg BitVec.toNat hzero))
  have hunpack : x.isNaN = (UnpackedFloat.unpack .binary64 x.toBits.toBitVec).isNaN := rfl
  rw [hunpack, UnpackedFloat.unpack] at h
  simp only [if_pos hexponent, if_neg hmantissa] at h
  cases h

end TreeScript.Number

namespace TreeScript.Scalar

open Number

variable {t : String} {x : Float}

/-! ### What is inferred -/

theorem literal?_of_infer (h : infer t = .decimal x) : literal? (Text.trim t.toList) = some x := by
  simp only [infer] at h
  split at h
  · cases h
  · next hliteral =>
    rw [hliteral, Scalar.decimal.inj h]
  · cases h

/-- A decimal number that is inferred is finite or infinite. -/
theorem magnitude_of_infer (h : infer t = .decimal x) (hx : isFinite x = false) :
    (parts x).magnitude = .infinite := by
  have hliteral := literal?_of_infer h
  rw [literal?] at hliteral
  split_ifs at hliteral
  have hnumber := magnitude_ne_notANumber (isNaN_of_decimal? hliteral)
  rw [isFinite] at hx
  cases hmagnitude : (parts x).magnitude with
  | finite mantissa exponent =>
    rw [hmagnitude] at hx
    cases hx
  | infinite => rfl
  | notANumber => exact absurd hmagnitude hnumber

/-! ### Words -/

/-- An infinite float is written as a word. -/
theorem decimalText_of_infinite (h : (parts x).magnitude = .infinite) :
    decimalText x = if (parts x).negative then "-inf" else "inf" := by
  rw [decimalText, Layout.render]
  simp only [h]
  split_ifs <;> rfl

/-- A word is a text. -/
theorem infer_word : infer "inf" = .text "inf" ∧ infer "-inf" = .text "-inf" := by
  constructor
  · with_unfolding_all rfl
  · with_unfolding_all rfl

/-! ### What is written is inferred again -/

/-- What becomes of a scalar that was inferred when it is written and inferred once more. -/
structure WrittenBack (t : String) : Prop where
  /-- It is the same again, unless it is an infinite number. -/
  infer_eq_iff : infer (infer t).written = infer t ↔ ∀ x, infer t = .decimal x → isFinite x = true
  /-- An infinite number becomes a text. -/
  infinite : ∀ x, infer t = .decimal x → isFinite x = false →
    (infer t).written = (if (parts x).negative then "-inf" else "inf") ∧
      infer (infer t).written = .text (infer t).written

/-- **What is written is inferred again**, if the text of a finite float is read back as the float; infinite
numbers are the exception. -/
theorem writtenBack_of_infer (h : ∀ x, infer t = .decimal x → Node.FiniteReadsBack x) :
    WrittenBack t := by
  have hinfinite : ∀ x, infer t = .decimal x → isFinite x = false →
      (infer t).written = (if (parts x).negative then "-inf" else "inf") ∧
        infer (infer t).written = .text (infer t).written := by
    intro x hdecimal hx
    have htext : (infer t).written = if (parts x).negative then "-inf" else "inf" := by
      rw [hdecimal]
      exact decimalText_of_infinite (magnitude_of_infer hdecimal hx)
    refine ⟨htext, ?_⟩
    rw [htext]
    split_ifs
    · exact infer_word.2
    · exact infer_word.1
  refine ⟨⟨fun hsame x hdecimal => ?_, fun hfinite => ?_⟩, hinfinite⟩
  · cases hx : isFinite x with
    | true => rfl
    | false =>
      rw [(hinfinite x hdecimal hx).2, hdecimal] at hsame
      cases hsame
  · cases hscalar : infer t with
    | text s =>
      obtain rfl := eq_of_infer_eq_text hscalar
      exact hscalar
    | integer n => exact infer_integer n
    | decimal x => exact infer_decimalText (hfinite x hscalar) (h x hscalar (hfinite x hscalar))
    | boolean b => exact absurd hscalar infer_ne_boolean

theorem writtenBack_of_infer_sample :
    infer " 2.5" = .decimal 2.5 ∧ infer (infer " 2.5").written = infer " 2.5" := by
  have hinfer : infer " 2.5" = .decimal 2.5 := by with_unfolding_all rfl
  have hdecimal : ∀ x, infer " 2.5" = .decimal x → x = 2.5 := fun x hx =>
    (Scalar.decimal.inj (hinfer.symm.trans hx)).symm
  have hback := writtenBack_of_infer (t := " 2.5") fun x hx _ => by
    rw [hdecimal x hx]
    exact Node.readsBack_sample.2
  refine ⟨hinfer, hback.infer_eq_iff.2 fun x hx => ?_⟩
  rw [hdecimal x hx]
  exact Node.readsBack_sample.1

/-- A number that is too large for a float is a decimal number at first, and a text when it has been
written. -/
theorem exists_not_written_back :
    ∃ t x, infer t = .decimal x ∧ infer (infer t).written = .text "inf" := by
  have hinfer : infer "1e999" = .decimal infinity := by with_unfolding_all rfl
  have hwritten : decimalText infinity = "inf" := by with_unfolding_all rfl
  refine ⟨"1e999", infinity, hinfer, ?_⟩
  rw [hinfer]
  show infer (decimalText infinity) = .text "inf"
  rw [hwritten]
  exact infer_word.1

end TreeScript.Scalar
