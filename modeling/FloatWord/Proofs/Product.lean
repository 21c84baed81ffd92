import FloatWord.Proofs.Nearest

/-!
# Proofs — Product — the host rounds its products to nearest

The host multiplies the significands exactly and cuts the product down to 53 bits, one bit at a
time, with two residual bits that remember what was cut.  `CutFrom` is the meaning of these bits,
and one cut keeps it (`CutFrom.shiftRightOne`).  So the mantissa that the host rounds to is the
nearest integer (`CutFrom.isNearestInt`), the digits are the nearest digits
(`exists_roundWithAccuracy`), and the product of two doubles is the double nearest to the product
of their numbers (`isNearest_mul`), without rounding where that is a double
(`rational?_mul`).
-/

namespace FloatWord
open Float.Model (UnpackedFloat Format totalExponent)
open Float.Model.UnpackedFloat

/-! ### The residual bits -/

/-- What the residual bits of a mantissa say about the number that it was cut from. -/
def CutFrom (em : ExtendedMantissa) (q : ℚ) : Prop :=
  match em.roundBit, em.stickyBit with
  | false, false => q = em.mantissa
  | false, true => em.mantissa < q ∧ q < em.mantissa + 1 / 2
  | true, false => q = em.mantissa + 1 / 2
  | true, true => em.mantissa + 1 / 2 < q ∧ q < em.mantissa + 1

theorem cutFrom_exact (m : ℕ) : CutFrom (.ofMantissaAndAccuracy m .exact) m := rfl

/-- Halving the mantissa halves the number. -/
theorem CutFrom.shiftRightOne {em : ExtendedMantissa} {q : ℚ} (h : CutFrom em q) :
    CutFrom em.shiftRightOne (q / 2) := by
  obtain ⟨m, r, t⟩ := em
  have hm : (m : ℚ) = 2 * (m / 2 : ℕ) + (m % 2 : ℕ) := by exact_mod_cast (Nat.div_add_mod m 2).symm
  rw [ExtendedMantissa.shiftRightOne]
  rcases Nat.mod_two_eq_zero_or_one m with hbit | hbit
  · rw [hbit, Nat.cast_zero] at hm
    rw [hbit, bne_self_eq_false]
    cases r <;> cases t <;> simp only [CutFrom, Bool.or_false, Bool.or_true, hm] at h ⊢
    · linarith
    · exact ⟨by linarith, by linarith⟩
    · exact ⟨by linarith, by linarith⟩
    · exact ⟨by linarith, by linarith⟩
  · have hset : (1 != 0) = true := rfl
    rw [hbit, Nat.cast_one] at hm
    rw [hbit, hset]
    cases r <;> cases t <;> simp only [CutFrom, Bool.or_false, Bool.or_true, hm] at h ⊢
    · linarith
    · exact ⟨by linarith, by linarith⟩
    · exact ⟨by linarith, by linarith⟩
    · exact ⟨by linarith, by linarith⟩

theorem CutFrom.shiftRight {em : ExtendedMantissa} {q : ℚ} (h : CutFrom em q) (k : ℕ) :
    CutFrom (em >>> k) (q / 2 ^ k) := by
  show CutFrom (k.repeat ExtendedMantissa.shiftRightOne em) (q / 2 ^ k)
  induction k with
  | zero => rwa [pow_zero, div_one]
  | succ k ih =>
      rw [Nat.repeat, pow_succ, ← div_div]
      exact ih.shiftRightOne

/-- The host rounds a cut mantissa to the nearest integer. -/
theorem CutFrom.isNearestInt {em : ExtendedMantissa} {q : ℚ} (h : CutFrom em q) :
    IsNearestInt q em.roundedMantissa := by
  obtain ⟨m, r, t⟩ := em
  rw [IsNearestInt, abs_le]
  cases r <;> cases t <;>
    simp only [CutFrom, ExtendedMantissa.roundedMantissa, ExtendedMantissa.accuracy,
      Accuracy.roundToNearestEven] at h ⊢
  · rw [h, Int.cast_natCast, sub_self, abs_zero]
    norm_num
  · rw [Int.cast_natCast]
    refine ⟨⟨by linarith, by linarith⟩, fun e => ?_⟩
    rw [abs_of_pos (by linarith)] at e
    linarith
  · -- halfway: the host adds the last bit
    rw [h]
    rcases Nat.mod_two_eq_zero_or_one m with hbit | hbit
    · have heven : Even (m : ℤ) := by exact_mod_cast Nat.even_iff.mpr hbit
      rw [hbit, Nat.add_zero, Int.cast_natCast]
      exact ⟨⟨by linarith, by linarith⟩, fun _ => heven⟩
    · have heven : Even ((m + 1 : ℕ) : ℤ) := by
        exact_mod_cast Nat.even_add_one.mpr (Nat.not_even_iff.mpr hbit)
      rw [hbit, Int.cast_natCast, Nat.cast_succ]
      exact ⟨⟨by linarith, by linarith⟩, fun _ => heven⟩
  · rw [Int.cast_natCast, Nat.cast_succ]
    refine ⟨⟨by linarith, by linarith⟩, fun e => ?_⟩
    rw [abs_of_neg (by linarith)] at e
    linarith

/-- Rounding to an integer does not pass an integer. -/
theorem IsNearestInt.le_of_le {q : ℚ} {n k : ℤ} (h : IsNearestInt q n) (hq : q ≤ k) : n ≤ k :=
  h.mono (isNearestInt_intCast k) hq

theorem IsNearestInt.ge_of_ge {q : ℚ} {n k : ℤ} (h : IsNearestInt q n) (hq : k ≤ q) : k ≤ n :=
  (isNearestInt_intCast k).mono h hq

/-! ### Rounding a significand -/

theorem targetExponent_totalExponent (m : ℕ) (e : ℤ) :
    Format.binary64.targetExponent (totalExponent m e) = max (m.log2 + e - 52) (-1074) := by
  have hbits : (Format.binary64.mantissaBits : ℤ) = 53 := rfl
  have hmin : Format.binary64.minExponent = -1074 := rfl
  rw [Format.targetExponent, totalExponent, hbits, hmin]
  omega

theorem shiftToTargetExponent_eq {m k : ℕ} {e t : ℤ} (ht : max (m.log2 + e - 52) (-1074) - e ≤ k)
    (hk : k = 0 ∨ max (m.log2 + e - 52) (-1074) - e = k) (he : e + k = t) :
    shiftToTargetExponent Format.binary64 m e .exact =
      (ExtendedMantissa.ofMantissaAndAccuracy m .exact >>> k, t) := by
  have hshift : (max ((m.log2 : ℤ) + e - 52) (-1074) - e).toNat = k := by omega
  rw [shiftToTargetExponent, shiftToExponent, targetExponent_totalExponent, hshift, he]

/-- A significand that fits is not shifted again. -/
theorem shiftToTargetExponent_of_lt {r : ℕ} {t : ℤ} (hr : r < 2 ^ 53) (ht : -1074 ≤ t) :
    shiftToTargetExponent Format.binary64 r t .exact =
      (ExtendedMantissa.ofMantissaAndAccuracy r .exact, t) := by
  have hlog : r.log2 ≤ 52 := by
    rcases Nat.eq_zero_or_pos r with h | h
    · rw [h]
      decide
    · exact Nat.lt_succ_iff.mp ((Nat.log2_lt h.ne').mpr hr)
  exact shiftToTargetExponent_eq (k := 0) (by omega) (.inl rfl) (by omega)

/-- A significand that has run over to the next power of two is shifted once more. -/
theorem shiftToTargetExponent_two_pow {t : ℤ} (ht : -1074 ≤ t) :
    shiftToTargetExponent Format.binary64 (2 ^ 53) t .exact =
      (ExtendedMantissa.ofMantissaAndAccuracy (2 ^ 53) .exact >>> 1, t + 1) :=
  shiftToTargetExponent_eq (k := 1) (by rw [Nat.log2_two_pow]; omega)
    (by rw [Nat.log2_two_pow]; omega) rfl

theorem div_two_pow_le {m k : ℕ} (h : m.log2 ≤ 52 + k) : (m : ℚ) / 2 ^ k ≤ 2 ^ 53 := by
  rw [div_le_iff₀ (by positivity)]
  have hpow : m ≤ 2 ^ 53 * 2 ^ k := by
    rw [← pow_add]
    exact Nat.lt_log2_self.le.trans (Nat.pow_le_pow_right (by decide) (by omega))
  exact_mod_cast hpow

theorem le_div_two_pow {m k : ℕ} (hm : 0 < m) (h : 52 + k ≤ m.log2) :
    2 ^ 52 ≤ (m : ℚ) / 2 ^ k := by
  rw [le_div_iff₀ (by positivity)]
  have hpow : 2 ^ 52 * 2 ^ k ≤ m := by
    rw [← pow_add]
    exact (Nat.pow_le_pow_right (by decide) h).trans (Nat.log2_self_le hm.ne')
  exact_mod_cast hpow

/-- The host puts together a sign and digits, past the top of the range as an infinity. -/
theorem pack_digits (s : Bool) (d : Digits) :
    Float.ofModel (Float.Model.pack
      (if h : d.significand = 0 then .zero (toSign s)
        else .finite (toSign s) d.significand d.exponent (Nat.pos_of_ne_zero h))) =
      ofDigits s d := by
  rw [← pack_unpacked, Digits.unpacked]
  split_ifs with h₀ hd hd
  · rfl
  · rw [d.word_eq_zero_iff.mpr h₀] at hd
    exact absurd (by decide) hd
  · rfl
  · have hlt := d.significand_lt
    have hexp : 2 ^ 11 ≤ (d.exponent + 1023 + 52).toNat + 1 := by
      unfold infinityPlace Digits.word at hd
      omega
    have hpack : pack Format.binary64 (.finite (toSign s) d.significand d.exponent
        (Nat.pos_of_ne_zero h₀)) = pack Format.binary64 (.infinity (toSign s)) := if_pos hexp
    exact Float.toBits_inj.mp (congrArg UInt64.ofBitVec hpack)

/-- The host rounds a significand to the nearest digits. -/
theorem exists_roundWithAccuracy (s : Bool) {m : ℕ} {e : ℤ} (hm : 0 < m)
    (he : e ≤ max (m.log2 + e - 52) (-1074)) :
    ∃ d : Digits, d.Nearest (m * 2 ^ e) ∧
      Float.ofModel (Float.Model.pack
        (roundWithAccuracy Format.binary64 (toSign s) m e .exact)) = ofDigits s d := by
  obtain ⟨t, ht⟩ : ∃ t, max (m.log2 + e - 52 : ℤ) (-1074) = t := ⟨_, rfl⟩
  obtain ⟨k, hk⟩ : ∃ k : ℕ, t - e = k := Int.eq_ofNat_of_zero_le (by omega)
  -- the first shift, and the integer that it is rounded to
  have hfirst := shiftToTargetExponent_eq (m := m) (e := e) (t := t) (k := k) (by omega) (by omega)
    (by omega)
  obtain ⟨r, hr⟩ : ∃ r,
      (ExtendedMantissa.ofMantissaAndAccuracy m .exact >>> k).roundedMantissa = r := ⟨_, rfl⟩
  have hround := ((cutFrom_exact m).shiftRight k).isNearestInt
  rw [hr] at hround
  have hq : (m : ℚ) * 2 ^ e / 2 ^ t = m / 2 ^ k := by
    rw [show t = e + k by omega, zpow_add₀ two_ne_zero, zpow_natCast, mul_comm (2 ^ e : ℚ),
      mul_div_mul_right _ _ (by positivity)]
  have hfine : t = -1074 ∨ (2 : ℚ) ^ 52 ≤ m / 2 ^ k := by
    by_cases h : t = -1074
    · exact .inl h
    · exact .inr (le_div_two_pow hm (by omega))
  have hle : r ≤ 2 ^ 53 := by
    have hint : (r : ℤ) ≤ (2 ^ 53 : ℕ) :=
      hround.le_of_le (by exact_mod_cast div_two_pow_le (m := m) (k := k) (by omega))
    exact_mod_cast hint
  have hge : t = -1074 ∨ 2 ^ 52 ≤ r := hfine.imp_right fun h => by
    have hint : ((2 ^ 52 : ℕ) : ℤ) ≤ r := hround.ge_of_ge (by exact_mod_cast h)
    exact_mod_cast hint
  have hnearest : ∀ d : Digits, d.value = r * 2 ^ t → (Even r → Even d.significand) →
      d.Nearest (m * 2 ^ e) := fun d hd heven =>
    Digits.nearest_of_isNearestInt (by rw [hq]; exact hround) hd heven (by rwa [hq])
  rcases hle.lt_or_eq with hlt | rfl
  · let d : Digits := ⟨r, t, hlt, by omega, hge.symm⟩
    refine ⟨d, hnearest d rfl id, ?_⟩
    rw [← pack_digits, roundWithAccuracy, hfirst]
    simp only [hr, shiftToTargetExponent_of_lt hlt (show -1074 ≤ t by omega)]
    rfl
  · let d : Digits := ⟨2 ^ 52, t + 1, by decide, by omega, .inl le_rfl⟩
    refine ⟨d, hnearest d ?_ fun _ => (by decide : Even (2 ^ 52)), ?_⟩
    · show ((2 ^ 52 : ℕ) : ℚ) * 2 ^ (t + 1) = (2 ^ 53 : ℕ) * 2 ^ t
      rw [zpow_add_one₀ two_ne_zero]
      push_cast
      ring
    · rw [← pack_digits, roundWithAccuracy, hfirst]
      simp only [hr, shiftToTargetExponent_two_pow (show -1074 ≤ t by omega)]
      rfl

/-! ### Products -/

variable {x y z : Float} {p q : ℚ}

theorem toSign_mul (s s' : Bool) : toSign s * toSign s' = toSign (s != s') := by
  cases s <;> cases s' <;> rfl

theorem signed_mul (s s' : Bool) (p q : ℚ) :
    signed (s != s') (p * q) = signed s p * signed s' q := by
  cases s <;> cases s'
  · rfl
  · exact (mul_neg p q).symm
  · exact (neg_mul p q).symm
  · exact (neg_mul_neg p q).symm

theorem pack_zero (s : Bool) :
    Float.ofModel (Float.Model.pack (.zero (toSign s))) = ofDigits s (.ofWord 0) :=
  pack_digits s (.ofWord 0)

/-- The product of two significands is long enough for their exponents: either a significand has
its leading bit in place, or both exponents are the least one. -/
theorem Digits.exponent_add_le {d d' : Digits} (h : 0 < d.significand) (h' : 0 < d'.significand) :
    d.exponent + d'.exponent ≤
      max ((d.significand * d'.significand).log2 + (d.exponent + d'.exponent) - 52) (-1074) := by
  have hlog : 2 ^ 52 ≤ d.significand * d'.significand →
      52 ≤ (d.significand * d'.significand).log2 := (Nat.le_log2 (Nat.mul_pos h h').ne').mpr
  rcases d.normal with hn | hn
  · have := hlog (hn.trans (Nat.le_mul_of_pos_right _ h'))
    omega
  rcases d'.normal with hn' | hn'
  · have := hlog (hn'.trans (Nat.le_mul_of_pos_left _ h))
    omega
  · omega

/-- The product of two doubles has the digits nearest to the product. -/
theorem exists_mul_eq {d d' : Digits} (h : d.word < infinityPlace) (h' : d'.word < infinityPlace)
    (s s' : Bool) :
    ∃ c : Digits, c.Nearest (d.value * d'.value) ∧
      ofDigits s d * ofDigits s' d' = ofDigits (s != s') c := by
  have hmul : ofDigits s d * ofDigits s' d' =
      Float.ofModel (Float.Model.pack (mul Format.binary64 (d.unpacked s) (d'.unpacked s'))) := by
    rw [← unpack_ofDigits, ← unpack_ofDigits]
    rfl
  have hzero := Digits.nearest_value (.ofWord 0)
  rw [Digits.value_ofWord_zero] at hzero
  rw [hmul, Digits.unpacked, Digits.unpacked, if_pos h, if_pos h']
  by_cases h₀ : d.significand = 0
  · refine ⟨.ofWord 0, by rwa [(Digits.value_eq_zero_iff d).mpr h₀, zero_mul], ?_⟩
    rw [dif_pos h₀, ← pack_zero, ← toSign_mul]
    split <;> rfl
  by_cases h₀' : d'.significand = 0
  · refine ⟨.ofWord 0, by rwa [(Digits.value_eq_zero_iff d').mpr h₀', mul_zero], ?_⟩
    rw [dif_neg h₀, dif_pos h₀', ← pack_zero, ← toSign_mul]
    rfl
  have hpos := Nat.pos_of_ne_zero h₀
  have hpos' := Nat.pos_of_ne_zero h₀'
  obtain ⟨c, hc, hcut⟩ := exists_roundWithAccuracy (s != s') (Nat.mul_pos hpos hpos')
    (Digits.exponent_add_le hpos hpos')
  refine ⟨c, ?_, ?_⟩
  · rw [zpow_add₀ two_ne_zero, Nat.cast_mul, mul_mul_mul_comm] at hc
    exact hc
  · rw [← hcut, ← toSign_mul, dif_neg h₀, dif_neg h₀']
    rfl

/-- The product is the double nearest to the product of the numbers. -/
theorem isNearest_mul (hx : rational? x = some p) (hy : rational? y = some q) :
    IsNearest (isNegative x != isNegative y) (p * q) (x * y) := by
  obtain ⟨s, d, h, rfl, rfl⟩ := exists_ofDigits_of_rational? hx
  obtain ⟨s', d', h', rfl, rfl⟩ := exists_ofDigits_of_rational? hy
  obtain ⟨c, hc, hmul⟩ := exists_mul_eq h h' s s'
  rw [isNegative_ofDigits, isNegative_ofDigits, hmul, ← signed_mul]
  exact isNearest_ofDigits (mul_nonneg d.value_nonneg d'.value_nonneg) hc _

/-- Where the number to round is a double, nothing is rounded. -/
theorem IsNearest.rational?_eq {s : Bool} (h : IsNearest s q y) (hq : Representable q) :
    rational? y = some q := by
  obtain ⟨z, hz⟩ := hq
  have hthr : ¬ overflowThreshold ≤ |q| := fun hthr => by
    have hinf := (isNearest_of_rational? hz).isInf_iff.mpr hthr
    rw [isInf_of_rational? hz] at hinf
    exact Bool.false_ne_true hinf
  obtain ⟨-, h⟩ := h
  rw [if_neg hthr] at h
  obtain ⟨v, hv, h⟩ := h
  have hle := (h z q hz).1
  rw [sub_self, abs_zero, abs_nonpos_iff, sub_eq_zero] at hle
  rw [hv, hle]

theorem rational?_mul (hx : rational? x = some p) (hy : rational? y = some q)
    (h : Representable (p * q)) : rational? (x * y) = some (p * q) :=
  (isNearest_mul hx hy).rational?_eq h

theorem isNegative_mul (hx : rational? x = some p) (hy : rational? y = some q) :
    isNegative (x * y) = (isNegative x != isNegative y) :=
  (isNearest_mul hx hy).1

/-! ### NaN, the infinities and the zeros -/

theorem notANumber_mul (y : Float) : notANumber * y = notANumber := by
  have hnan : notANumber.toModel.unpack = .notANumber :=
    unpack_nanWord (w := notANumber.toBits) (by decide)
  show Float.ofModel (Float.Model.pack (mul Format.binary64 notANumber.toModel.unpack _)) = _
  rw [hnan]
  cases y.toModel.unpack <;> rfl

theorem exists_ofDigits_of_isInf (hx : x.isInf = true) :
    ∃ d : Digits, infinityPlace ≤ d.word ∧ x = ofDigits (isNegative x) d := by
  refine ⟨.ofWord infinityPlace, (Digits.word_ofWord _).ge, ?_⟩
  rw [ofDigits_of_le (Digits.word_ofWord _).ge]
  exact eq_infinity_of_isInf hx

/-- A positive factor leaves an infinity as it is. -/
theorem isInf_mul (hx : x.isInf = true) (hy : rational? y = some q) (hq : 0 < q) : x * y = x := by
  have hsy := isNegative_of_pos hy hq
  obtain ⟨s, d, h, rfl, rfl⟩ := exists_ofDigits_of_rational? hy
  rw [isNegative_ofDigits] at hsy
  subst hsy
  have h₀ : d.significand ≠ 0 := fun h₀ => by
    rw [(Digits.value_eq_zero_iff d).mpr h₀, signed_zero] at hq
    exact lt_irrefl _ hq
  obtain ⟨c, hc, hxc⟩ := exists_ofDigits_of_isInf hx
  rw [hxc]
  show Float.ofModel (Float.Model.pack (mul Format.binary64
    (ofDigits (isNegative x) c).toModel.unpack _)) = _
  rw [unpack_ofDigits, unpack_ofDigits, ← pack_unpacked, Digits.unpacked, Digits.unpacked,
    if_neg (not_lt.mpr hc), if_pos h, dif_neg h₀]
  show Float.ofModel (Float.Model.pack (.infinity (toSign (isNegative x) * toSign false))) = _
  rw [toSign_mul, Bool.bne_false]

/-- A positive factor leaves a zero as it is. -/
theorem mul_of_rational?_zero (hx : rational? x = some 0) (hy : rational? y = some q)
    (hq : 0 < q) : x * y = x := by
  have hmul := rational?_mul hx hy ⟨x, by rw [zero_mul, hx]⟩
  rw [zero_mul] at hmul
  refine eq_of_rational? hmul hx ?_
  rw [isNegative_mul hx hy, isNegative_of_pos hy hq, Bool.bne_false]

end FloatWord
