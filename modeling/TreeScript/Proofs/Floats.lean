import Mathlib
import TreeScript.Number.Nearest
import TreeScript.Number.Parts

/-!
# Integers as floats

A natural number with at most 53 binary digits is a float: with its digits moved up to the 53 places of a
mantissa nothing has to be rounded.  So such a number is its own nearest float, and is still there when the
float is cut down to an integer.

- `IsNormal`, `normal`: mantissas and exponents that are packed as they are.
- `roundWithAccuracy_mul`: a mantissa that is longer by zeros only is not rounded.
- `parts_normal`, `neg_normal`: the parts of a normal float, and its negative.
- `nearest_eq_normal`: a small natural number as a normal float.
- `truncate?_nearest`: the integer part of the float nearest to a small natural number.
-/

namespace TreeScript.Number

open Float.Model Float.Model.UnpackedFloat

/-! ### Normal floats -/

/-- The mantissa and the exponent of a normal float: the mantissa has 53 binary digits, and the exponent
can be packed. -/
structure IsNormal (mantissa : Nat) (exponent : Int) : Prop where
  low : 2 ^ 52 ≤ mantissa
  high : mantissa < 2 ^ 53
  least : -1074 ≤ exponent
  greatest : exponent ≤ 971

variable {m : Nat} {e : Int}

theorem IsNormal.pos (h : IsNormal m e) : 0 < m := Nat.lt_of_lt_of_le (by decide) h.low

theorem IsNormal.log2_eq (h : IsNormal m e) : m.log2 = 52 :=
  (Nat.log2_eq_iff (Nat.ne_of_gt h.pos)).2 ⟨h.low, h.high⟩

/-- The float `± mantissa · 2 ^ exponent`. -/
def normal (sign : Sign) (h : IsNormal m e) : Float := .ofModel (.pack (.finite sign m e h.pos))

/-! ### Rounding -/

/-- A mantissa has 53 digits, as long as the exponent is not too small for that. -/
theorem targetExponent_eq (m : Nat) (e : Int) :
    Format.binary64.targetExponent (totalExponent m e) = max (m.log2 + e - 52) (-1074) := by
  have hmin : Format.binary64.minExponent = -1074 := rfl
  have hbits : Format.binary64.mantissaBits = 53 := rfl
  rw [Format.targetExponent, totalExponent, hmin, hbits]
  omega

/-- Zeros are shifted out without a loss. -/
theorem shiftRight_mul (m j : Nat) :
    (⟨m * 2 ^ j, false, false⟩ : ExtendedMantissa) >>> j = ⟨m, false, false⟩ := by
  show j.repeat ExtendedMantissa.shiftRightOne _ = _
  induction j generalizing m with
  | zero => rw [Nat.pow_zero, Nat.mul_one]; rfl
  | succ j ih =>
    have hmul : m * 2 ^ (j + 1) = m * 2 * 2 ^ j := by rw [Nat.pow_succ', Nat.mul_assoc]
    rw [Nat.repeat, hmul, ih, ExtendedMantissa.shiftRightOne]
    simp

theorem log2_mul_two_pow (hpos : 0 < m) (j : Nat) : (m * 2 ^ j).log2 = m.log2 + j := by
  obtain ⟨hlow, hhigh⟩ := (Nat.log2_eq_iff (Nat.ne_of_gt hpos)).1 (rfl : m.log2 = m.log2)
  rw [Nat.log2_eq_iff (Nat.ne_of_gt (Nat.mul_pos hpos (Nat.two_pow_pos j))), Nat.pow_add,
    Nat.add_right_comm, Nat.pow_add]
  exact ⟨Nat.mul_le_mul_right _ hlow, Nat.mul_lt_mul_of_pos_right hhigh (Nat.two_pow_pos j)⟩

/-- A mantissa that is longer by zeros only is shifted down to its first 53 digits. -/
theorem shiftToTargetExponent_mul (h : IsNormal m e) (j : Nat) :
    shiftToTargetExponent .binary64 (m * 2 ^ j) (e - j) .exact = (⟨m, false, false⟩, e) := by
  have hlog : (m * 2 ^ j).log2 = 52 + j := by
    rw [log2_mul_two_pow h.pos, h.log2_eq]
  have htarget : Format.binary64.targetExponent (totalExponent (m * 2 ^ j) (e - j)) = e := by
    have := h.least
    rw [targetExponent_eq, hlog]
    omega
  have hamount : (e - (e - (j : Int))).toNat = j := by omega
  rw [shiftToTargetExponent, htarget, shiftToExponent, hamount]
  exact Prod.ext (shiftRight_mul m j) (Int.sub_add_cancel e j)

theorem shiftToTargetExponent_normal (h : IsNormal m e) :
    shiftToTargetExponent .binary64 m e .exact = (⟨m, false, false⟩, e) := by
  have hzero := shiftToTargetExponent_mul h 0
  rwa [Nat.pow_zero, Nat.mul_one, Int.natCast_zero, Int.sub_zero] at hzero

/-- A mantissa is shifted, rounded, and shifted once more if that has made it longer. -/
theorem roundWithAccuracy_eq {sign : Sign} {mantissa : Nat} {exponent e₁ : Int} {accuracy : Accuracy}
    {em : ExtendedMantissa} (h : IsNormal m e)
    (hfirst : shiftToTargetExponent .binary64 mantissa exponent accuracy = (em, e₁))
    (hsecond : shiftToTargetExponent .binary64 em.roundedMantissa e₁ .exact = (⟨m, false, false⟩, e)) :
    roundWithAccuracy .binary64 sign mantissa exponent accuracy = .finite sign m e h.pos := by
  rw [roundWithAccuracy]
  simp only [hfirst, hsecond]
  exact dif_neg (Nat.ne_of_gt h.pos)

/-- **A mantissa that is longer by zeros only is not rounded.** -/
theorem roundWithAccuracy_mul (sign : Sign) (h : IsNormal m e) (j : Nat) :
    roundWithAccuracy .binary64 sign (m * 2 ^ j) (e - j) .exact = .finite sign m e h.pos :=
  roundWithAccuracy_eq h (shiftToTargetExponent_mul h j) (shiftToTargetExponent_normal h)

theorem roundWithAccuracy_normal (sign : Sign) (h : IsNormal m e) :
    roundWithAccuracy .binary64 sign m e .exact = .finite sign m e h.pos := by
  have hzero := roundWithAccuracy_mul sign h 0
  rwa [Nat.pow_zero, Nat.mul_one, Int.natCast_zero, Int.sub_zero] at hzero

/-! ### Bits -/

theorem toNat_packComponents (sign : Sign) (exponent : BitVec 11) (mantissa : BitVec 52) :
    (packComponents .binary64 sign exponent mantissa).toNat =
      (sign.toBitVec.toNat * 2 ^ 11 + exponent.toNat) * 2 ^ 52 + mantissa.toNat := by
  show (sign.toBitVec ++ exponent ++ mantissa).toNat = _
  rw [BitVec.toNat_append, BitVec.toNat_append, ← Nat.shiftLeft_add_eq_or_of_lt exponent.isLt,
    ← Nat.shiftLeft_add_eq_or_of_lt mantissa.isLt, Nat.shiftLeft_eq, Nat.shiftLeft_eq]

/-- How a normal float is packed: with a biased exponent, and without the first digit of the mantissa. -/
theorem pack_normal (sign : Sign) (h : IsNormal m e) :
    UnpackedFloat.pack .binary64 (.finite sign m e h.pos) =
      packComponents .binary64 sign (BitVec.ofNat 11 (e + 1075).toNat) (BitVec.ofNat 52 m) := by
  have hbias : e + (Format.binary64.exponentBias : Int) + (52 : Nat) = e + 1075 := by
    have hvalue : Format.binary64.exponentBias = 1023 := rfl
    rw [hvalue]
    omega
  have hfits : ¬2 ^ 11 ≤ (e + 1075).toNat + 1 := by
    have := h.greatest
    omega
  have hbits : m.log2 + 1 = Format.binary64.mantissaBits := congrArg (· + 1) h.log2_eq
  rw [UnpackedFloat.pack]
  simp only [hbias]
  rw [if_neg hfits, if_pos hbits]

theorem toNat_exponent (h : IsNormal m e) :
    (BitVec.ofNat 11 (e + 1075).toNat).toNat = (e + 1075).toNat := by
  have := h.greatest
  rw [BitVec.toNat_ofNat, Nat.mod_eq_of_lt (by omega)]

theorem toNat_mantissa (h : IsNormal m e) : (BitVec.ofNat 52 m).toNat = m - 2 ^ 52 := by
  have := h.low
  have := h.high
  rw [BitVec.toNat_ofNat]
  omega

/-- **Packing a normal float loses nothing.**  Its exponent is neither that of an infinite float nor that
of a subnormal one, and its first digit is put back. -/
theorem unpack_normal (sign : Sign) (h : IsNormal m e) :
    (Float.Model.pack (.finite sign m e h.pos)).unpack = .finite sign m e h.pos := by
  show UnpackedFloat.unpack .binary64 (UnpackedFloat.pack .binary64 (.finite sign m e h.pos)) = _
  have hexponent := toNat_exponent h
  have hleast := h.least
  have hgreatest := h.greatest
  have hinfinite : BitVec.ofNat 11 (e + 1075).toNat ≠ -1#11 := by
    intro heq
    have := congrArg BitVec.toNat heq
    rw [hexponent] at this
    have hones : (-1#11).toNat = 2047 := by decide
    omega
  have hsubnormal : BitVec.ofNat 11 (e + 1075).toNat ≠ 0#11 := by
    intro heq
    have := congrArg BitVec.toNat heq
    rw [hexponent, BitVec.toNat_zero] at this
    omega
  have hmantissa : (1#1 ++ BitVec.ofNat 52 m).toNat = m := by
    rw [BitVec.toNat_append, ← Nat.shiftLeft_add_eq_or_of_lt (BitVec.isLt _), toNat_mantissa h,
      Nat.shiftLeft_eq]
    have := h.low
    have hone : (1#1).toNat = 1 := rfl
    omega
  rw [pack_normal sign h, UnpackedFloat.unpack]
  simp only [unpackExponent_packComponents, unpackMantissa_packComponents, unpackSign_packComponents,
    hinfinite, hsubnormal, if_false, Sign.ofBitVec_toBitVec, hexponent, hmantissa]
  congr 1
  have hbias : Format.binary64.exponentBias = 1023 := rfl
  rw [hbias]
  omega

theorem neg_normal (sign : Sign) (h : IsNormal m e) : -normal sign h = normal (-sign) h := by
  show Float.ofModel (.pack (Float.Model.pack (.finite sign m e h.pos)).unpack.neg) = _
  rw [unpack_normal sign h]
  rfl

/-- **The parts of a normal float.** -/
theorem parts_normal (sign : Sign) (h : IsNormal m e) :
    parts (normal sign h) = ⟨sign == .negative, .finite m e⟩ := by
  have hbits : (normal sign h).toBits.toNat =
      (sign.toBitVec.toNat * 2 ^ 11 + (e + 1075).toNat) * 2 ^ 52 + (m - 2 ^ 52) := by
    show (UnpackedFloat.pack .binary64 (.finite sign m e h.pos)).toNat = _
    rw [pack_normal sign h, toNat_packComponents, toNat_exponent h, toNat_mantissa h]
  have hlow := h.low
  have hhigh := h.high
  have hleast := h.least
  have hgreatest := h.greatest
  have hplaces : Nat.pow 2 52 = 2 ^ 52 := rfl
  have hbias : Nat.pow 2 11 = 2 ^ 11 := rfl
  have hfraction : (normal sign h).toBits.toNat % Nat.pow 2 52 = m - 2 ^ 52 := by
    rw [hbits, hplaces]
    omega
  have hbiased : (normal sign h).toBits.toNat / Nat.pow 2 52 % Nat.pow 2 11 = (e + 1075).toNat := by
    rw [hbits, hplaces, hbias]
    omega
  have hnegative : decide (Nat.pow 2 63 ≤ (normal sign h).toBits.toNat) = (sign == .negative) := by
    have hpow : Nat.pow 2 63 = 2 ^ 11 * 2 ^ 52 := rfl
    rw [hbits, hpow]
    cases sign with
    | negative =>
      have hone : Sign.negative.toBitVec.toNat = 1 := rfl
      exact decide_eq_true (by omega)
    | positive =>
      have hzero : Sign.positive.toBitVec.toNat = 0 := rfl
      exact decide_eq_false (by omega)
  have hmantissa : Nat.pow 2 52 + (m - 2 ^ 52) = m := Nat.add_sub_cancel' hlow
  have hexponent : ((e + 1075).toNat : Int) - 1075 = e := by omega
  rw [parts]
  simp only [hfraction, hbiased, hnegative, hmantissa, hexponent]
  rw [if_neg (by omega), if_neg (by omega)]

/-! ### Small natural numbers -/

variable {n : Nat}

/-- How far the digits of a number have to be moved up to be a mantissa. -/
def places (n : Nat) : Nat := 52 - n.log2

/-- A small number is normal with its digits moved up. -/
theorem isNormal_of_lt (hpos : 0 < n) (h : n < 2 ^ 53) : IsNormal (n * 2 ^ places n) (-places n) := by
  have hlog : n.log2 < 53 := (Nat.log2_lt (Nat.ne_of_gt hpos)).2 h
  obtain ⟨hlow, hhigh⟩ := (Nat.log2_eq_iff (Nat.ne_of_gt hpos)).1 (rfl : n.log2 = n.log2)
  have hplaces : n.log2 + places n = 52 := by
    rw [places]
    omega
  refine ⟨?_, ?_, by omega, by omega⟩
  · calc 2 ^ 52 = 2 ^ n.log2 * 2 ^ places n := by rw [← Nat.pow_add, hplaces]
      _ ≤ n * 2 ^ places n := Nat.mul_le_mul_right _ hlow
  · calc n * 2 ^ places n < 2 ^ (n.log2 + 1) * 2 ^ places n :=
          Nat.mul_lt_mul_of_pos_right hhigh (Nat.two_pow_pos _)
      _ = 2 ^ 53 := by rw [← Nat.pow_add, Nat.add_right_comm, hplaces]

/-- **A small number is converted without rounding.** -/
theorem toFloat_eq_normal (hpos : 0 < n) (h : n < 2 ^ 53) :
    n.toUInt64.toFloat = normal .positive (isNormal_of_lt hpos h) := by
  have hword : n.toUInt64.toNat = n := UInt64.toNat_ofNat_of_lt' (by
    have hsize : UInt64.size = 2 ^ 64 := rfl
    omega)
  have hcompare : compare (n : Int) 0 = .gt := Int.compare_eq_gt.2 (by omega)
  have htarget : Format.binary64.targetExponent (totalExponent n 0) = -places n := by
    have hlog : n.log2 < 53 := (Nat.log2_lt (Nat.ne_of_gt hpos)).2 h
    rw [targetExponent_eq, places]
    omega
  -- the digits are moved up to where they are wanted, so nothing is left to be rounded
  have hdecrease : decreaseExponent n 0 (-places n) = (n * 2 ^ places n, -(places n : Int)) := by
    have hamount : (0 - -(places n : Int)).toNat = places n := by omega
    rw [decreaseExponent, hamount, Nat.shiftLeft_eq, Int.zero_sub]
  have hround := roundWithAccuracy_normal .positive (isNormal_of_lt hpos h)
  show Float.ofModel (.pack (UnpackedFloat.normalize .binary64 (n.toUInt64.toNat : Int) 0 .positive)) = _
  rw [hword, UnpackedFloat.normalize, hcompare]
  simp only [UnpackedFloat.round, Int.toNat_natCast, htarget, hdecrease, hround]
  rfl

theorem isNormal_one : IsNormal (2 ^ 52) (-52) := ⟨by decide, by decide, by decide, by decide⟩

/-- A float is not changed by a multiplication with one. -/
theorem normal_mul_one (h : IsNormal m e) :
    normal .positive h * Float.ofBits 0x3FF0000000000000 = normal .positive h := by
  have hone : Float.ofBits 0x3FF0000000000000 = normal .positive isNormal_one := by
    with_unfolding_all rfl
  have hround := roundWithAccuracy_mul .positive h 52
  rw [hone]
  show Float.ofModel (.pack (UnpackedFloat.mul .binary64
    (Float.Model.pack (.finite .positive m e h.pos)).unpack
    (Float.Model.pack (.finite .positive (2 ^ 52) (-52) isNormal_one.pos)).unpack)) = _
  rw [unpack_normal .positive h, unpack_normal .positive isNormal_one]
  exact congrArg (fun x => Float.ofModel (.pack x)) hround

theorem ofScientific_eq_normal (hpos : 0 < n) (h : n < 2 ^ 53) :
    Float.ofScientific n false 0 = normal .positive (isNormal_of_lt hpos h) := by
  rw [Float.ofScientific, dif_pos ⟨h, by decide⟩]
  show n.toUInt64.toFloat * Float.ofBits 0x3FF0000000000000 = _
  rw [toFloat_eq_normal hpos h, normal_mul_one]

/-- **A small number is its own nearest float.** -/
theorem nearest_eq_normal (hpos : 0 < n) (h : n < 2 ^ 53) :
    nearest n 0 = normal .positive (isNormal_of_lt hpos h) := by
  have hdigits : digitCount n ≤ 16 :=
    (Nat.length_toDigits_le_iff (by decide) (by decide)).2 (Nat.lt_trans h (by decide))
  have hmagnitude : (digitCount n : Int) + 0 ≤ 310 ∧ -330 ≤ (digitCount n : Int) + 0 := by omega
  rw [nearest, if_neg (Nat.ne_of_gt hpos), if_neg (Int.not_lt.2 hmagnitude.1),
    if_neg (Int.not_lt.2 hmagnitude.2), if_pos (Int.le_refl 0)]
  exact ofScientific_eq_normal hpos h

/-! ### Cutting down to integers -/

theorem wholePart_places (n : Nat) : wholePart (n * 2 ^ places n) (-places n) = n := by
  have hpow : ∀ k, Nat.pow 2 k = 2 ^ k := fun _ => rfl
  rw [wholePart]
  split
  · have hzero : places n = 0 := by omega
    rw [hzero]
    show n * 2 ^ 0 * Nat.pow 2 0 = n
    rw [hpow, Nat.pow_zero, Nat.mul_one, Nat.mul_one]
  · have hamount : (- -(places n : Int)).toNat = places n := by omega
    rw [hamount, hpow, Nat.mul_div_cancel _ (Nat.two_pow_pos _)]

/-- Nothing is left of zero, whatever its sign is. -/
theorem truncate?_zero : truncate? 0.0 = int64? 0 ∧ truncate? (-0.0) = int64? 0 := by decide +kernel

/-- **A small number is still there** when its nearest float, or the negative of it, is cut down to an
integer. -/
theorem truncate?_nearest (h : n ≤ 2 ^ 53) :
    truncate? (nearest n 0) = int64? n ∧ truncate? (-nearest n 0) = int64? (-n) := by
  rcases Nat.eq_or_lt_of_le h with rfl | hlt
  · exact ⟨by with_unfolding_all rfl, by with_unfolding_all rfl⟩
  · rcases Nat.eq_zero_or_pos n with rfl | hpos
    · exact truncate?_zero
    · have htruncate : ∀ sign : Sign, truncate? (normal sign (isNormal_of_lt hpos hlt)) =
          int64? (bif sign == .negative then -(n : Int) else n) := by
        intro sign
        rw [truncate?, parts_normal]
        simp only [wholePart_places, cond_eq_ite]
      rw [nearest_eq_normal hpos hlt, neg_normal]
      constructor
      · rw [htruncate]
        rfl
      · rw [htruncate]
        rfl

end TreeScript.Number
