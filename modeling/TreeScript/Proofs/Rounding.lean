import TreeScript.Proofs.Floats

/-!
# Integers that are rounded

A float has 53 binary digits, so a longer integer is rounded to a multiple of a power of two: to the nearer one,
and to the one with an even mantissa if both are equally near.  That is all that is lost when an integer becomes
a float.  It comes back as the rounded integer, if that is in range; and two integers are equal as floats
exactly if they are rounded to the same integer.

- `halfEven`, `roundedMantissa_shiftRight`: one division, and the bits by which a float is rounded.
- `rounded`, `rounded_eq_iff`, `rounded_eq_two_pow_iff`: natural numbers with 53 binary digits.
- `HasValue`, `exists_ofNat`: a natural number as a float.
- `truncate?_ofInt`, `ofInt_beq_iff`: what comes back, and what is equal.
-/

namespace TreeScript.Number

open Float.Model Float.Model.UnpackedFloat

/-! ### One division -/

/-- The natural number nearest to a quotient, and of two that are equally near the even one. -/
def halfEven (n d : Nat) : Nat :=
  if 2 * (n % d) < d then n / d
  else if d < 2 * (n % d) then n / d + 1
  else n / d + n / d % 2

theorem le_halfEven (n d : Nat) : n / d ≤ halfEven n d := by
  rw [halfEven]
  split_ifs <;> omega

theorem halfEven_le (n d : Nat) : halfEven n d ≤ n / d + 1 := by
  rw [halfEven]
  split_ifs <;> omega

/-- Half of the divisor is the most that is lost or added. -/
theorem dist_halfEven_le (n : Nat) {d : Nat} (hd : 0 < d) :
    2 * n ≤ 2 * (halfEven n d * d) + d ∧ 2 * (halfEven n d * d) ≤ 2 * n + d := by
  have hdiv : n / d * d + n % d = n := Nat.div_add_mod' n d
  have hrest := Nat.mod_lt n hd
  rw [halfEven]
  split_ifs
  · omega
  · rw [Nat.add_mul, Nat.one_mul]
    omega
  · rcases Nat.mod_two_eq_zero_or_one (n / d) with heven | hodd
    · rw [heven, Nat.add_zero]
      omega
    · rw [hodd, Nat.add_mul, Nat.one_mul]
      omega

theorem halfEven_mul_right (n d : Nat) {c : Nat} (hc : 0 < c) :
    halfEven (n * c) (d * c) = halfEven n d := by
  rw [halfEven, halfEven, Nat.mul_div_mul_right n d hc, Nat.mul_mod_mul_right, ← Nat.mul_assoc]
  simp only [Nat.mul_lt_mul_right hc]

/-- A multiple is not rounded. -/
theorem halfEven_mul_self (q : Nat) {d : Nat} (hd : 0 < d) : halfEven (q * d) d = q := by
  rw [halfEven, Nat.mul_mod_left, Nat.mul_div_cancel q hd, if_pos (by omega)]

/-- What is left after a shift, and the two bits that say what was lost. -/
theorem shiftRight_succ (m j : Nat) :
    (⟨m, false, false⟩ : ExtendedMantissa) >>> (j + 1) =
      ⟨m / 2 ^ (j + 1), m / 2 ^ j % 2 != 0, m % 2 ^ j != 0⟩ := by
  show (j + 1).repeat ExtendedMantissa.shiftRightOne _ = _
  induction j with
  | zero =>
    rw [Nat.repeat, Nat.repeat, ExtendedMantissa.shiftRightOne]
    simp [Nat.mod_one]
  | succ j ih =>
    have hlow : m % 2 ^ (j + 1) = m % 2 ^ j + 2 ^ j * (m / 2 ^ j % 2) := Nat.mod_pow_succ
    have hhigh : m / 2 ^ (j + 1) / 2 = m / 2 ^ (j + 1 + 1) := by
      rw [Nat.div_div_eq_div_mul, ← Nat.pow_succ]
    have hsticky : (m / 2 ^ j % 2 != 0 || m % 2 ^ j != 0) = (m % 2 ^ (j + 1) != 0) := by
      have hpos := Nat.two_pow_pos j
      rw [hlow, Bool.eq_iff_iff]
      simp only [Bool.or_eq_true, bne_iff_ne, ne_eq, Nat.add_eq_zero_iff, Nat.mul_eq_zero]
      omega
    rw [Nat.repeat, ih, ExtendedMantissa.shiftRightOne]
    simp only [hhigh, hsticky]

/-- **The bits that are kept round to the nearest mantissa.** -/
theorem roundedMantissa_shiftRight (m j : Nat) :
    ((⟨m, false, false⟩ : ExtendedMantissa) >>> j).roundedMantissa = halfEven m (2 ^ j) := by
  cases j with
  | zero =>
    have hone := halfEven_mul_self m Nat.one_pos
    rw [Nat.mul_one] at hone
    rw [Nat.pow_zero, hone]
    rfl
  | succ j =>
    have hlow : m % 2 ^ (j + 1) = m % 2 ^ j + 2 ^ j * (m / 2 ^ j % 2) := Nat.mod_pow_succ
    have hrest : m % 2 ^ j < 2 ^ j := Nat.mod_lt _ (Nat.two_pow_pos j)
    have hdouble : 2 ^ (j + 1) = 2 * 2 ^ j := Nat.pow_succ'
    rw [shiftRight_succ, halfEven, hlow]
    rcases Nat.mod_two_eq_zero_or_one (m / 2 ^ j) with hround | hround
    · rw [hround, Nat.mul_zero, if_pos (by omega)]
      cases m % 2 ^ j != 0 <;> rfl
    · rw [hround, Nat.mul_one, if_neg (by omega)]
      cases hsticky : m % 2 ^ j != 0 with
      | false =>
        rw [bne_eq_false_iff_eq] at hsticky
        rw [if_neg (by omega)]
        rfl
      | true =>
        rw [bne_iff_ne] at hsticky
        rw [if_pos (by omega)]
        rfl

/-! ### Natural numbers with 53 binary digits -/

/-- How many binary digits a natural number has that a float has no place for. -/
def excess (n : Nat) : Nat := n.log2 - 52

/-- The natural number nearest to a number of which only the first 53 binary digits are not zero. -/
def rounded (n : Nat) : Nat := halfEven n (2 ^ excess n) * 2 ^ excess n

variable {n : Nat}

theorem dist_rounded_le (n : Nat) :
    2 * n ≤ 2 * rounded n + 2 ^ excess n ∧ 2 * rounded n ≤ 2 * n + 2 ^ excess n :=
  dist_halfEven_le n (Nat.two_pow_pos (excess n))

theorem rounded_of_dvd (h : 2 ^ excess n ∣ n) : rounded n = n := by
  obtain ⟨q, hq⟩ := h
  have hself := halfEven_mul_self q (Nat.two_pow_pos (excess n))
  rw [Nat.mul_comm, ← hq] at hself
  rw [rounded, hself, Nat.mul_comm, ← hq]

theorem rounded_of_lt (h : n < 2 ^ 53) : rounded n = n := by
  have hexcess : excess n = 0 := by
    rcases Nat.eq_zero_or_pos n with rfl | hpos
    · decide
    · have := (Nat.log2_lt (Nat.ne_of_gt hpos)).2 h
      rw [excess]
      omega
  refine rounded_of_dvd ?_
  rw [hexcess]
  exact Nat.one_dvd n

/-- A long number has 53 digits in front of those that are too many. -/
theorem excess_spec (h : 2 ^ 52 ≤ n) :
    2 ^ 52 * 2 ^ excess n ≤ n ∧ n < 2 ^ 53 * 2 ^ excess n := by
  have hne : n ≠ 0 := by omega
  obtain ⟨hlow, hhigh⟩ := (Nat.log2_eq_iff hne).1 (rfl : n.log2 = n.log2)
  have hlog : 52 ≤ n.log2 := (Nat.le_log2 hne).2 h
  have hexcess : n.log2 = 52 + excess n := by
    rw [excess]
    omega
  have hnext : 52 + excess n + 1 = 53 + excess n := by omega
  rw [hexcess] at hlow hhigh
  rw [← Nat.pow_add, ← Nat.pow_add]
  exact ⟨hlow, by rwa [hnext] at hhigh⟩

/-- The mantissa of a long number has 53 digits, unless it is rounded up to the next power of two. -/
theorem halfEven_excess (h : 2 ^ 52 ≤ n) :
    2 ^ 52 ≤ halfEven n (2 ^ excess n) ∧ halfEven n (2 ^ excess n) ≤ 2 ^ 53 := by
  obtain ⟨hlow, hhigh⟩ := excess_spec h
  have hpos := Nat.two_pow_pos (excess n)
  have hdivLow : 2 ^ 52 ≤ n / 2 ^ excess n := (Nat.le_div_iff_mul_le hpos).2 hlow
  have hdivHigh : n / 2 ^ excess n < 2 ^ 53 := (Nat.div_lt_iff_lt_mul hpos).2 hhigh
  have hle := le_halfEven n (2 ^ excess n)
  have hge := halfEven_le n (2 ^ excess n)
  omega

/-- **Numbers that are not rounded**: at most `2 ^ 53`, or a multiple of a power of two that is. -/
theorem rounded_eq_iff : rounded n = n ↔ ∃ q k, q ≤ 2 ^ 53 ∧ n = q * 2 ^ k := by
  constructor
  · intro h
    rcases Nat.lt_or_ge n (2 ^ 52) with hsmall | hlarge
    · exact ⟨n, 0, by omega, (Nat.mul_one n).symm⟩
    · exact ⟨_, excess n, (halfEven_excess hlarge).2, h.symm⟩
  · rintro ⟨q, k, hq, rfl⟩
    rcases Nat.lt_or_ge (q * 2 ^ k) (2 ^ 53) with hsmall | hlarge
    · exact rounded_of_lt hsmall
    · -- the digits that are too many are among the last `k`, or `q` itself ends with zeros
      have hlow := (excess_spec (by omega : 2 ^ 52 ≤ q * 2 ^ k)).1
      have hexponent : 52 + excess (q * 2 ^ k) ≤ 53 + k := by
        refine (Nat.pow_le_pow_iff_right (by decide : 1 < 2)).1 ?_
        rw [Nat.pow_add, Nat.pow_add]
        exact Nat.le_trans hlow (Nat.mul_le_mul_right _ hq)
      refine rounded_of_dvd ?_
      rcases Nat.lt_or_ge k (excess (q * 2 ^ k)) with hlt | hle
      · have hnext : excess (q * 2 ^ k) = k + 1 := by omega
        have htop : 2 ^ 53 ≤ q := by
          have hdouble : 2 ^ 53 * 2 ^ k = 2 ^ 52 * 2 ^ (k + 1) := by ring
          rw [hnext, ← hdouble] at hlow
          exact Nat.le_of_mul_le_mul_right hlow (Nat.two_pow_pos k)
        obtain rfl : q = 2 ^ 53 := by omega
        rw [hnext]
        exact ⟨2 ^ 52, by ring⟩
      · exact Nat.dvd_trans (Nat.pow_dvd_pow 2 hle) (Nat.dvd_mul_left _ q)

theorem rounded_pos (h : 0 < n) : 0 < rounded n := by
  rcases Nat.lt_or_ge n (2 ^ 53) with hsmall | hlarge
  · rwa [rounded_of_lt hsmall]
  · have hmantissa := (halfEven_excess (by omega : 2 ^ 52 ≤ n)).1
    exact Nat.mul_pos (by omega) (Nat.two_pow_pos _)

theorem rounded_le_of_lt {k : Nat} (hk : 53 ≤ k) (h : n < 2 ^ k) : rounded n ≤ 2 ^ k := by
  rcases Nat.lt_or_ge n (2 ^ 52) with hsmall | hlarge
  · rw [rounded_of_lt (by omega)]
    exact Nat.le_of_lt h
  · have hlog : n.log2 < k := (Nat.log2_lt (by omega)).2 h
    have hexcess : 53 + excess n ≤ k := by
      rw [excess]
      omega
    calc rounded n ≤ 2 ^ 53 * 2 ^ excess n := Nat.mul_le_mul_right _ (halfEven_excess hlarge).2
      _ = 2 ^ (53 + excess n) := (Nat.pow_add 2 53 (excess n)).symm
      _ ≤ 2 ^ k := Nat.pow_le_pow_right Nat.two_pos hexcess

/-- Within 64 bits only the last 512 numbers are rounded up to the first one that has no place. -/
theorem rounded_cases (h : n < 2 ^ 63) :
    (n < 2 ^ 63 - 512 ∧ rounded n < 2 ^ 63) ∨ (2 ^ 63 - 512 ≤ n ∧ rounded n = 2 ^ 63) := by
  rcases Nat.lt_or_ge n (2 ^ 62) with hsmall | hlarge
  · have := rounded_le_of_lt (by decide) hsmall
    exact .inl ⟨by omega, by omega⟩
  · have hlog : n.log2 = 62 := (Nat.log2_eq_iff (by omega)).2 ⟨hlarge, h⟩
    have hexcess : excess n = 10 := by rw [excess, hlog]
    have hpow : 2 ^ 10 = 1024 := rfl
    rw [rounded, hexcess, hpow, halfEven]
    split_ifs
    · omega
    · omega
    · omega

/-! ### Natural numbers as floats -/

/-- The float `m · 2 ^ e` is the natural number `w`. -/
def HasValue (m : Nat) (e : Int) (w : Nat) : Prop := m * 2 ^ e.toNat = w * 2 ^ (-e).toNat

variable {m : Nat} {e : Int} {w : Nat}

/-- The value of a normal float determines its exponent. -/
theorem HasValue.exponent_eq (h : HasValue m e w) (hm : IsNormal m e) : e = w.log2 - 52 := by
  have hw : 0 < w := by
    rcases Nat.eq_zero_or_pos w with rfl | hpos
    · rw [HasValue, Nat.zero_mul] at h
      exact absurd h (Nat.ne_of_gt (Nat.mul_pos hm.pos (Nat.two_pow_pos _)))
    · exact hpos
  have hlog := congrArg Nat.log2 h
  rw [log2_mul_two_pow hm.pos, log2_mul_two_pow hw, hm.log2_eq] at hlog
  omega

theorem HasValue.eq {m' : Nat} {e' : Int} (h : HasValue m e w) (hm : IsNormal m e)
    (h' : HasValue m' e' w) (hm' : IsNormal m' e') : m = m' ∧ e = e' := by
  obtain rfl : e = e' := (h.exponent_eq hm).trans (h'.exponent_eq hm').symm
  refine ⟨?_, rfl⟩
  exact Nat.eq_of_mul_eq_mul_right (Nat.two_pow_pos _) (Eq.trans h (Eq.symm h'))

theorem HasValue.wholePart_eq (h : HasValue m e w) : wholePart m e = w := by
  have hpow : ∀ k, Nat.pow 2 k = 2 ^ k := fun _ => rfl
  rw [HasValue] at h
  rw [wholePart]
  split
  · have hzero : (-e).toNat = 0 := by omega
    rw [hzero, Nat.pow_zero, Nat.mul_one] at h
    rw [hpow, h]
  · have hzero : e.toNat = 0 := by omega
    rw [hzero, Nat.pow_zero, Nat.mul_one] at h
    rw [hpow, h, Nat.mul_div_cancel _ (Nat.two_pow_pos _)]

/-- **A long number is rounded** to 53 binary digits, also if its digits stand in front of zeros. -/
theorem exists_roundWithAccuracy (sign : Sign) (h : 2 ^ 53 ≤ n) (hbig : n.log2 < 1023) (j : Nat) :
    ∃ m e, ∃ hm : IsNormal m e,
      roundWithAccuracy .binary64 sign (n * 2 ^ j) (-j) .exact = .finite sign m e hm.pos ∧
        HasValue m e (rounded n) := by
  have hpos : 0 < n := by omega
  obtain ⟨hlow, hhigh⟩ := halfEven_excess (by omega : 2 ^ 52 ≤ n)
  have hexcess : excess n ≤ 970 := by
    rw [excess]
    omega
  have htarget : Format.binary64.targetExponent (totalExponent (n * 2 ^ j) (-j)) = excess n := by
    have hlong : 53 ≤ n.log2 := (Nat.le_log2 (by omega)).2 h
    rw [targetExponent_eq, log2_mul_two_pow hpos, excess]
    omega
  have hfirst : shiftToTargetExponent .binary64 (n * 2 ^ j) (-j) .exact =
      ((⟨n * 2 ^ j, false, false⟩ : ExtendedMantissa) >>> (excess n + j), (excess n : Int)) := by
    have hamount : ((excess n : Int) - -(j : Int)).toNat = excess n + j := by omega
    rw [shiftToTargetExponent, htarget, shiftToExponent, hamount]
    exact Prod.ext rfl (by show -(j : Int) + (excess n + j : Nat) = excess n; omega)
  have hmantissa : ((⟨n * 2 ^ j, false, false⟩ : ExtendedMantissa) >>> (excess n + j)).roundedMantissa =
      halfEven n (2 ^ excess n) := by
    rw [roundedMantissa_shiftRight, Nat.pow_add, halfEven_mul_right _ _ (Nat.two_pow_pos j)]
  rcases Nat.lt_or_ge (halfEven n (2 ^ excess n)) (2 ^ 53) with hlt | hge
  · have hm : IsNormal (halfEven n (2 ^ excess n)) (excess n) := ⟨hlow, hlt, by omega, by omega⟩
    refine ⟨_, _, hm, roundWithAccuracy_eq hm hfirst ?_, ?_⟩
    · rw [hmantissa]
      exact shiftToTargetExponent_normal hm
    · have hzero : (-(excess n : Int)).toNat = 0 := by omega
      rw [HasValue, Int.toNat_natCast, hzero, Nat.pow_zero, Nat.mul_one, rounded]
  · -- it was rounded up to a power of two, and there is one more digit
    have htop : halfEven n (2 ^ excess n) = 2 ^ 52 * 2 ^ 1 := by omega
    have hm : IsNormal (2 ^ 52) (excess n + 1) := ⟨by decide, by decide, by omega, by omega⟩
    have hsecond := shiftToTargetExponent_mul hm 1
    rw [Int.natCast_one, Int.add_sub_cancel] at hsecond
    refine ⟨_, _, hm, roundWithAccuracy_eq hm hfirst ?_, ?_⟩
    · rw [hmantissa, htop]
      exact hsecond
    · have hzero : (-((excess n : Int) + 1)).toNat = 0 := by omega
      have hone : ((excess n : Int) + 1).toNat = excess n + 1 := by omega
      rw [HasValue, hone, hzero, rounded, htop]
      ring

/-- **A natural number as a float** is the rounded number. -/
theorem exists_ofNat (hpos : 0 < n) (hbig : n.log2 < 1023) :
    ∃ m e, ∃ hm : IsNormal m e, Float.ofNat n = normal .positive hm ∧ HasValue m e (rounded n) := by
  rcases Nat.lt_or_ge n (2 ^ 53) with hsmall | hlarge
  · refine ⟨_, _, isNormal_of_lt hpos hsmall, ofScientific_eq_normal hpos hsmall, ?_⟩
    have hplaces : (-(places n : Int)).toNat = 0 ∧ (- -(places n : Int)).toNat = places n := by omega
    rw [HasValue, rounded_of_lt hsmall, hplaces.1, hplaces.2, Nat.pow_zero, Nat.mul_one]
  · obtain ⟨m, e, hm, hround, hvalue⟩ := exists_roundWithAccuracy .positive hlarge hbig 53
    refine ⟨m, e, hm, ?_, hvalue⟩
    have hlong : ¬(n < 2 ^ 53 ∧ 0 ≤ 22) := by omega
    show Float.ofScientific n false 0 = _
    rw [Float.ofScientific, dif_neg hlong]
    show Float.ofModel (.pack (UnpackedFloat.ofScientific .binary64 n 0)) = _
    have hnotSmall : ¬(0 : Int) < -((2 ^ 11 : Int) + n.log2) := by omega
    have hmantissa : (n <<< Format.binary64.mantissaBits) * 10 ^ (0 : Int).toNat = n * 2 ^ 53 := by
      rw [Nat.shiftLeft_eq]
      exact Nat.mul_one _
    rw [UnpackedFloat.ofScientific, dif_neg (Nat.ne_of_gt hpos), if_neg (by decide), if_neg hnotSmall,
      if_pos (Int.le_refl 0)]
    show Float.ofModel (.pack (roundWithAccuracy .binary64 .positive
      ((n <<< Format.binary64.mantissaBits) * 10 ^ (0 : Int).toNat) (-(53 : Nat)) .exact)) = _
    rw [hmantissa, hround]
    rfl

/-! ### Integers as floats -/

/-- The integer nearest to an integer of which only the first 53 binary digits are not zero. -/
def roundedInt (i : Int) : Int := if i < 0 then -rounded i.natAbs else rounded i.natAbs

/-- The sign of an integer other than zero. -/
def signOf (i : Int) : Sign := if i < 0 then .negative else .positive

variable {i j : Int}

/-- **An integer as a float** is the rounded integer. -/
theorem exists_ofInt (hne : i ≠ 0) (hbig : i.natAbs.log2 < 1023) :
    ∃ m e, ∃ hm : IsNormal m e,
      Float.ofInt i = normal (signOf i) hm ∧ HasValue m e (rounded i.natAbs) := by
  obtain ⟨m, e, hm, hfloat, hvalue⟩ := exists_ofNat (Int.natAbs_pos.2 hne) hbig
  refine ⟨m, e, hm, ?_, hvalue⟩
  cases i with
  | ofNat n =>
    have hsign : signOf (.ofNat n) = .positive := if_neg (Int.not_lt.2 (Int.natCast_nonneg n))
    rw [hsign]
    exact hfloat
  | negSucc n =>
    have hsign : signOf (.negSucc n) = .negative := if_pos (Int.negSucc_lt_zero n)
    rw [hsign]
    show -Float.ofNat (n + 1) = _
    exact (congrArg (-·) hfloat).trans (neg_normal .positive hm)

/-- **What comes back** from a float is the rounded integer, if it is in range. -/
theorem truncate?_ofInt (hbig : i.natAbs.log2 < 1023) :
    truncate? (Float.ofInt i) = int64? (roundedInt i) := by
  by_cases hne : i = 0
  · have hzero : Float.ofInt 0 = 0.0 := by with_unfolding_all rfl
    rw [hne, hzero]
    exact truncate?_zero.1
  · obtain ⟨m, e, hm, hfloat, hvalue⟩ := exists_ofInt hne hbig
    rw [hfloat, truncate?, parts_normal]
    simp only [hvalue.wholePart_eq]
    rw [roundedInt, signOf]
    by_cases hneg : i < 0
    · rw [if_pos hneg, if_pos hneg]
      rfl
    · rw [if_neg hneg, if_neg hneg]
      rfl

theorem normal_beq_iff {m m' : Nat} {e e' : Int} {s s' : Sign} (h : IsNormal m e) (h' : IsNormal m' e') :
    (normal s h == normal s' h') = true ↔ s = s' ∧ m = m' ∧ e = e' := by
  show ((Float.Model.pack (.finite s m e h.pos)).unpack.compare
    (Float.Model.pack (.finite s' m' e' h'.pos)).unpack == some .eq) = true ↔ _
  have hexact : ((compare e e').then (compare m m')) = .eq ↔ m = m' ∧ e = e' := by
    rw [Ordering.then_eq_eq, compare_eq_iff_eq, compare_eq_iff_eq, and_comm]
  rw [unpack_normal s h, unpack_normal s' h']
  cases s <;> cases s'
  · simp [UnpackedFloat.compare, hexact]
  · simp [UnpackedFloat.compare]
  · simp [UnpackedFloat.compare]
  · simp [UnpackedFloat.compare, hexact]

theorem HasValue.eq_iff {m' w' : Nat} {e' : Int} (h : HasValue m e w) (hm : IsNormal m e)
    (h' : HasValue m' e' w') (hm' : IsNormal m' e') : m = m' ∧ e = e' ↔ w = w' := by
  constructor
  · rintro ⟨rfl, rfl⟩
    exact Nat.eq_of_mul_eq_mul_right (Nat.two_pow_pos _) (Eq.trans (Eq.symm h) h')
  · rintro rfl
    exact h.eq hm h' hm'

theorem roundedInt_eq_iff (hi : i ≠ 0) (hj : j ≠ 0) :
    signOf i = signOf j ∧ rounded i.natAbs = rounded j.natAbs ↔ roundedInt i = roundedInt j := by
  have hposi := rounded_pos (Int.natAbs_pos.2 hi)
  have hposj := rounded_pos (Int.natAbs_pos.2 hj)
  rw [signOf, signOf, roundedInt, roundedInt]
  split_ifs <;> simp <;> omega

theorem roundedInt_ne_zero (hi : i ≠ 0) : roundedInt i ≠ 0 := by
  have hpos := rounded_pos (Int.natAbs_pos.2 hi)
  rw [roundedInt]
  split_ifs <;> omega

theorem zero_beq_normal (s : Sign) (h : IsNormal m e) :
    (Float.ofInt 0 == normal s h) = false ∧ (normal s h == Float.ofInt 0) = false := by
  have hzero : (Float.ofInt 0).toModel.unpack = .zero .positive := by with_unfolding_all rfl
  show ((Float.ofInt 0).toModel.unpack.compare
      (Float.Model.pack (.finite s m e h.pos)).unpack == some .eq) = false ∧
    ((Float.Model.pack (.finite s m e h.pos)).unpack.compare
      (Float.ofInt 0).toModel.unpack == some .eq) = false
  rw [hzero, unpack_normal s h]
  cases s with
  | positive => exact ⟨rfl, rfl⟩
  | negative => exact ⟨rfl, rfl⟩

/-- **Integers are equal as floats** exactly if they are rounded to the same integer. -/
theorem ofInt_beq_iff (hi : i.natAbs.log2 < 1023) (hj : j.natAbs.log2 < 1023) :
    (Float.ofInt i == Float.ofInt j) = true ↔ roundedInt i = roundedInt j := by
  by_cases hi₀ : i = 0
  · by_cases hj₀ : j = 0
    · subst hi₀ hj₀
      exact iff_of_true (by with_unfolding_all rfl) rfl
    · obtain ⟨m, e, hm, hfloat, -⟩ := exists_ofInt hj₀ hj
      subst hi₀
      rw [hfloat, (zero_beq_normal _ hm).1]
      exact iff_of_false Bool.false_ne_true (Ne.symm (roundedInt_ne_zero hj₀))
  · obtain ⟨m, e, hm, hfloat, hvalue⟩ := exists_ofInt hi₀ hi
    by_cases hj₀ : j = 0
    · subst hj₀
      rw [hfloat, (zero_beq_normal _ hm).2]
      exact iff_of_false Bool.false_ne_true (roundedInt_ne_zero hi₀)
    · obtain ⟨m', e', hm', hfloat', hvalue'⟩ := exists_ofInt hj₀ hj
      rw [hfloat, hfloat', normal_beq_iff, hvalue.eq_iff hm hvalue' hm', roundedInt_eq_iff hi₀ hj₀]

end TreeScript.Number
