import FloatWord.Proofs.Product

/-!
# Proofs — Representable — which numbers are doubles

A number is a double if its magnitude has digits and stays below `2 ^ 1024`
(`representable_iff`).  The sign does not matter, and neither does a power of two as long as the
result keeps its digits: nothing is lost going up, and nothing going down to the normal numbers
(`Representable.mul_zpow`).  The integers below `2 ^ 53` are doubles, and the conversions of the
host find them (`rational?_toFloat`, `toNat_toUInt64`).
-/

namespace FloatWord
open Float.Model (UnpackedFloat Format)
open Float.Model.UnpackedFloat

variable {x : Float} {q : ℚ}

/-! ### Powers of two as factors -/

theorem abs_mul_zpow (q : ℚ) (j : ℤ) : |q * 2 ^ j| = |q| * 2 ^ j := by
  rw [abs_mul, abs_of_pos (a := (2 : ℚ) ^ j) (by positivity)]

theorem le_abs_mul_zpow {j : ℤ} (hj : 0 ≤ j) : |q| ≤ |q * 2 ^ j| := by
  rw [abs_mul_zpow]
  exact le_mul_of_one_le_right (abs_nonneg q) (one_le_zpow₀ one_le_two hj)

theorem abs_mul_zpow_le {j : ℤ} (hj : j ≤ 0) : |q * 2 ^ j| ≤ |q| := by
  rw [abs_mul_zpow]
  exact mul_le_of_le_one_right (abs_nonneg q) (zpow_le_one_of_nonpos₀ one_le_two hj)

theorem abs_mul_zpow_lt (hq : |q| < 1) (j : ℤ) : |q * 2 ^ j| < 2 ^ j := by
  rw [abs_mul_zpow]
  exact mul_lt_of_lt_one_left (by positivity) hq

theorem zpow_le_abs_mul_zpow (hq : 1 / 2 ≤ |q|) (j : ℤ) : 2 ^ (j - 1) ≤ |q * 2 ^ j| := by
  rw [abs_mul_zpow]
  calc (2 : ℚ) ^ (j - 1) = 1 / 2 * 2 ^ j := by
        rw [zpow_sub_one₀ two_ne_zero]
        ring
    _ ≤ |q| * 2 ^ j := by gcongr

theorem mul_zpow_neg_iff {j : ℤ} : q * 2 ^ j < 0 ↔ q < 0 := by
  rw [← neg_pos, ← neg_mul, mul_pos_iff_of_pos_right (by positivity), neg_pos]

theorem mul_zpow_mul_zpow (q : ℚ) (i j : ℤ) : q * 2 ^ i * 2 ^ j = q * 2 ^ (i + j) := by
  rw [mul_assoc, ← zpow_add₀ two_ne_zero]

/-! ### Closure -/

theorem representable_iff : Representable q ↔ ∃ d : Digits, d.value = |q| ∧ |q| < 2 ^ 1024 := by
  constructor
  · rintro ⟨x, hx⟩
    obtain ⟨s, d, h, -, rfl⟩ := exists_ofDigits_of_rational? hx
    have hd := d.word_lt_infinityPlace_iff.mp h
    rw [abs_signed, abs_of_nonneg d.value_nonneg]
    exact ⟨d, rfl, hd⟩
  · rintro ⟨d, hd, hq⟩
    rw [← hd, ← d.word_lt_infinityPlace_iff] at hq
    rcases abs_choice q with h | h <;> rw [h] at hd
    · exact ⟨ofDigits false d, by rw [rational?_ofDigits hq, ← hd]; rfl⟩
    · refine ⟨ofDigits true d, ?_⟩
      rw [rational?_ofDigits hq, hd]
      exact congrArg some (neg_neg q)

theorem Representable.abs_lt (h : Representable q) : |q| < 2 ^ 1024 := by
  obtain ⟨-, -, hq⟩ := representable_iff.mp h
  exact hq

theorem representable_abs_iff : Representable |q| ↔ Representable q := by
  rw [representable_iff, representable_iff, abs_abs]

/-- A short significand over the least exponent is a double, if it is not too large. -/
theorem representable_of_abs_eq {n : ℕ} {e : ℤ} (hn : n < 2 ^ 53) (he : -1074 ≤ e)
    (hq : |q| = n * 2 ^ e) (hlt : |q| < 2 ^ 1024) : Representable q := by
  obtain ⟨d, hd⟩ := Digits.exists_value_eq hn he
  exact representable_iff.mpr ⟨d, by rw [hd, hq], hlt⟩

theorem zpow_lt_two_pow_1024 {k : ℤ} (hk : k ≤ 1023) : (2 : ℚ) ^ k < 2 ^ 1024 := by
  rw [← zpow_natCast]
  exact zpow_lt_zpow_right₀ one_lt_two (by omega)

theorem representable_zpow {k : ℤ} (hk : -1074 ≤ k) (hk' : k ≤ 1023) :
    Representable ((2 : ℚ) ^ k) := by
  have habs : |(2 : ℚ) ^ k| = 2 ^ k := abs_of_pos (by positivity)
  refine representable_of_abs_eq (n := 1) (by decide) hk ?_ ?_
  · rw [habs, Nat.cast_one, one_mul]
  · rw [habs]
    exact zpow_lt_two_pow_1024 hk'

/-- A power of two moves a double to a double, as long as it stays among the normal numbers or
goes up. -/
theorem Representable.mul_zpow {j : ℤ} (h : Representable q)
    (hj : 0 ≤ j ∨ 2 ^ (-1022 : ℤ) ≤ |q * 2 ^ j|) (hlt : |q * 2 ^ j| < 2 ^ 1024) :
    Representable (q * 2 ^ j) := by
  obtain ⟨d, hd, -⟩ := representable_iff.mp h
  have habs : |q * 2 ^ j| = d.significand * 2 ^ (d.exponent + j) := by
    rw [abs_mul, ← hd, abs_of_pos (zpow_pos two_pos j), Digits.value, mul_assoc,
      ← zpow_add₀ two_ne_zero]
  refine representable_of_abs_eq d.significand_lt ?_ habs hlt
  have hexp := d.le_exponent
  rcases hj with hj | hj
  · omega
  · -- below the least exponent the significand would not reach the normal numbers
    by_contra hlow
    have hlt : |q * 2 ^ j| < 2 ^ 53 * 2 ^ (-1075 : ℤ) := by
      rw [habs]
      have hs : (d.significand : ℚ) < 2 ^ 53 := by exact_mod_cast d.significand_lt
      have he : (2 : ℚ) ^ (d.exponent + j) ≤ 2 ^ (-1075 : ℤ) :=
        zpow_le_zpow_right₀ one_le_two (by omega)
      calc (d.significand : ℚ) * 2 ^ (d.exponent + j)
          < 2 ^ 53 * 2 ^ (d.exponent + j) := by gcongr
        _ ≤ 2 ^ 53 * 2 ^ (-1075 : ℤ) := by gcongr
    rw [← zpow_natCast, ← zpow_add₀ two_ne_zero] at hlt
    exact absurd hj (not_le.mpr hlt)

theorem Representable.mul_zpow_of_le {j : ℤ} (h : Representable q) (hj : j ≤ 0)
    (hq : 2 ^ (-1022 : ℤ) ≤ |q * 2 ^ j|) : Representable (q * 2 ^ j) :=
  h.mul_zpow (.inr hq) ((abs_mul_zpow_le hj).trans_lt h.abs_lt)

/-! ### The width of the range -/

/-- Every nonzero double is out of range after 2098 binades up. -/
theorem Representable.two_pow_1024_le (h : Representable q) (hq : q ≠ 0) {j : ℤ} (hj : 2098 ≤ j) :
    2 ^ 1024 ≤ |q * 2 ^ j| := by
  obtain ⟨x, hx⟩ := h
  have hmin := two_mul_underflowThreshold_le hx hq
  rw [two_mul_underflowThreshold, Digits.value_ofWord_one] at hmin
  rw [abs_mul_zpow]
  calc (2 : ℚ) ^ 1024 = 2 ^ (-1074 : ℤ) * 2 ^ (2098 : ℤ) := by
        rw [← zpow_add₀ two_ne_zero, ← zpow_natCast]
        rfl
    _ ≤ |q| * 2 ^ j := by
        gcongr
        exact one_le_two

/-- Every double is rounded to zero after 2099 binades down. -/
theorem Representable.abs_le_underflowThreshold (h : Representable q) {j : ℤ} (hj : j ≤ -2099) :
    |q * 2 ^ j| ≤ underflowThreshold := by
  have hmax := h.abs_lt
  rw [abs_mul_zpow, underflowThreshold]
  calc |q| * 2 ^ j ≤ 2 ^ 1024 * 2 ^ (-2099 : ℤ) := by
        gcongr
        exact one_le_two
    _ = 2 ^ (-1075 : ℤ) := by
        rw [← zpow_natCast, ← zpow_add₀ two_ne_zero]
        rfl

/-! ### Integers to doubles and back -/

theorem log2_mul_two_pow {n : ℕ} (hn : n ≠ 0) (k : ℕ) : (n * 2 ^ k).log2 = n.log2 + k := by
  induction k with
  | zero => rw [pow_zero, mul_one, Nat.add_zero]
  | succ k ih =>
      rw [pow_succ', Nat.mul_left_comm, Nat.log2_two_mul (Nat.mul_ne_zero hn (by positivity)), ih,
        Nat.add_assoc]

/-- From `2 ^ 52` on every double is an integer. -/
theorem Representable.exists_natCast_eq (h : Representable q) (hq : 2 ^ 52 ≤ q) :
    ∃ n : ℕ, q = n := by
  obtain ⟨d, hd, -⟩ := representable_iff.mp h
  rw [abs_of_nonneg (le_trans (by positivity) hq)] at hd
  have hexp : 0 ≤ d.exponent := by
    by_contra hneg
    have hlt : d.value < 2 ^ 52 := by
      calc d.value < 2 ^ 53 * 2 ^ d.exponent := by
            rw [Digits.value]
            gcongr
            exact_mod_cast d.significand_lt
        _ ≤ 2 ^ 53 * 2 ^ (-1 : ℤ) := by gcongr; exacts [one_le_two, by omega]
        _ = 2 ^ 52 := by rw [zpow_neg_one]; ring
    rw [hd] at hlt
    exact absurd hq (not_le.mpr hlt)
  obtain ⟨k, hk⟩ := Int.eq_ofNat_of_zero_le hexp
  refine ⟨d.significand * 2 ^ k, ?_⟩
  rw [← hd, Digits.value, hk, zpow_natCast]
  push_cast
  rfl

/-- A significand that is too short for its exponent is made longer first. -/
theorem exists_round (s : Bool) {m : ℕ} (hm : 0 < m) (e : ℤ) :
    ∃ d : Digits, d.Nearest (m * 2 ^ e) ∧
      Float.ofModel (Float.Model.pack (UnpackedFloat.round Format.binary64 (toSign s) m e)) =
        ofDigits s d := by
  obtain ⟨k, hk⟩ : ∃ k : ℕ, (e - max ((m.log2 : ℤ) + e - 52) (-1074)).toNat = k := ⟨_, rfl⟩
  have hround : UnpackedFloat.round Format.binary64 (toSign s) m e =
      roundWithAccuracy Format.binary64 (toSign s) (m * 2 ^ k) (e - k) .exact := by
    simp only [UnpackedFloat.round, targetExponent_totalExponent, decreaseExponent, hk,
      Nat.shiftLeft_eq]
  obtain ⟨d, hd, hpack⟩ := exists_roundWithAccuracy s (m := m * 2 ^ k) (e := e - k)
    (by positivity) (by rw [log2_mul_two_pow hm.ne']; push_cast; omega)
  have hval : ((m * 2 ^ k : ℕ) : ℚ) * 2 ^ (e - k : ℤ) = m * 2 ^ e := by
    rw [zpow_sub₀ two_ne_zero, zpow_natCast]
    push_cast
    rw [mul_assoc, mul_div_cancel₀ _ (by positivity)]
  rw [hval] at hd
  exact ⟨d, hd, by rw [hround, hpack]⟩

/-- The host brings an integer over an exponent into form, rounded to the nearest digits. -/
theorem exists_normalize (z e : ℤ) :
    ∃ d : Digits, d.Nearest (|(z : ℚ)| * 2 ^ e) ∧
      Float.ofModel (Float.Model.pack (UnpackedFloat.normalize Format.binary64 z e .positive)) =
        ofDigits (decide (z < 0)) d := by
  rcases lt_trichotomy z 0 with hneg | rfl | hpos
  · obtain ⟨m, hm⟩ : ∃ m : ℕ, -z = m := Int.eq_ofNat_of_zero_le (by omega)
    obtain ⟨d, hd, hround⟩ := exists_round true (m := m) (by omega) e
    have habs : |(z : ℚ)| = m := by
      rw [abs_of_neg (by exact_mod_cast hneg)]
      exact_mod_cast hm
    refine ⟨d, by rwa [habs], ?_⟩
    rw [UnpackedFloat.normalize, Int.compare_eq_lt.mpr hneg, hm, Int.toNat_natCast,
      decide_eq_true hneg]
    exact hround
  · refine ⟨.ofWord 0, ?_, pack_zero false⟩
    rw [Int.cast_zero, abs_zero, zero_mul, ← Digits.value_ofWord_zero]
    exact Digits.nearest_value _
  · obtain ⟨m, rfl⟩ : ∃ m : ℕ, z = m := Int.eq_ofNat_of_zero_le hpos.le
    obtain ⟨d, hd, hround⟩ := exists_round false (m := m) (by omega) e
    have habs : |((m : ℤ) : ℚ)| = m := by rw [Int.cast_natCast, Nat.abs_cast]
    refine ⟨d, by rwa [habs], ?_⟩
    rw [UnpackedFloat.normalize, Int.compare_eq_gt.mpr hpos, Int.toNat_natCast,
      decide_eq_false hpos.not_gt]
    exact hround

/-- The host converts an integer to the nearest double. -/
theorem isNearest_toFloat (n : UInt64) : IsNearest false n.toNat n.toFloat := by
  obtain ⟨d, hd, hpack⟩ := exists_normalize n.toNat 0
  rw [Int.cast_natCast, Nat.abs_cast, zpow_zero, mul_one] at hd
  rw [decide_eq_false (Int.natCast_nonneg _).not_gt] at hpack
  have hfloat : n.toFloat = ofDigits false d := hpack
  rw [hfloat]
  exact isNearest_ofDigits (Nat.cast_nonneg _) hd false

theorem representable_natCast {n : ℕ} (hn : n ≤ 2 ^ 53) : Representable n := by
  rcases hn.lt_or_eq with hn | rfl
  · refine representable_of_abs_eq (e := 0) hn (by decide) ?_ ?_
    · rw [zpow_zero, mul_one, abs_of_nonneg (by positivity)]
    · rw [abs_of_nonneg (by positivity)]
      calc (n : ℚ) < 2 ^ 53 := by exact_mod_cast hn
        _ ≤ 2 ^ 1024 := pow_le_pow_right₀ one_le_two (by decide)
  · exact_mod_cast representable_zpow (k := 53) (by decide) (by decide)

/-- An integer up to `2 ^ 53` is converted without rounding. -/
theorem rational?_toFloat {n : UInt64} (hn : n.toNat ≤ 2 ^ 53) :
    rational? n.toFloat = some n.toNat :=
  (isNearest_toFloat n).rational?_eq (representable_natCast hn)

/-- What is cut off is less than one. -/
theorem CutFrom.mantissa_eq {em : ExtendedMantissa} {q : ℚ} (h : CutFrom em q) :
    em.mantissa = ⌊q⌋₊ := by
  obtain ⟨m, r, t⟩ := em
  have hle : (m : ℚ) ≤ q ∧ q < m + 1 := by
    cases r <;> cases t <;> simp only [CutFrom] at h <;> constructor <;> linarith
  obtain ⟨hle, hlt⟩ := hle
  exact ((Nat.floor_eq_iff ((Nat.cast_nonneg m).trans hle)).mpr ⟨hle, hlt⟩).symm

/-- The host's conversion to an integer drops the digits after the point. -/
theorem roundToInt_eq (s : Sign) (m : ℕ) (e : ℤ) :
    roundToInt s m e = s.apply ⌊(m : ℚ) * 2 ^ e⌋₊ := by
  unfold roundToInt decreaseExponent shiftToExponent
  obtain ⟨k, rfl | rfl⟩ := Int.eq_nat_or_neg e
  · -- no bits after the point
    have hdown : ((k : ℤ) - 0).toNat = k := by omega
    have hup : (0 - ((k : ℤ) - k)).toNat = 0 := by omega
    have hint : (m : ℚ) * 2 ^ (k : ℤ) = (m * 2 ^ k : ℕ) := by
      rw [zpow_natCast]
      push_cast
      rfl
    simp only [hdown, hup, Nat.shiftLeft_eq, hint, Nat.floor_natCast]
    rfl
  · have hdown : (-(k : ℤ) - 0).toNat = 0 := by omega
    have hup : (0 - (-(k : ℤ) - (0 : ℕ))).toNat = k := by omega
    have hcut := (cutFrom_exact m).shiftRight k
    rw [zpow_neg, zpow_natCast, ← div_eq_mul_inv, ← hcut.mantissa_eq]
    simp only [hdown, hup, Nat.shiftLeft_zero]

/-- Below zero there is no natural number to convert to. -/
theorem toNat_toInt_unpack (hx : rational? x = some q) (lo hi : ℤ) :
    (x.toModel.unpack.toInt lo hi).toNat = ⌊q⌋₊ := by
  rw [rational?] at hx
  cases hu : x.toModel.unpack with
  | infinity s => rw [hu] at hx; cases hx
  | notANumber => rw [hu] at hx; cases hx
  | zero s =>
      rw [hu] at hx
      rw [← Option.some.inj hx, Nat.floor_zero]
      rfl
  | finite s m e hm =>
      rw [hu] at hx
      rw [UnpackedFloat.toInt, roundToInt_eq, ← Option.some.inj hx]
      cases s with
      | positive => simp [Sign.apply]
      | negative =>
          have hneg : ((Sign.negative.apply m : ℤ) : ℚ) * 2 ^ e ≤ 0 := by
            have hpos : (0 : ℚ) ≤ m * 2 ^ e := by positivity
            rw [Sign.apply, Int.cast_neg, Int.cast_natCast, neg_mul]
            exact neg_nonpos.mpr hpos
          rw [Nat.floor_of_nonpos hneg]
          simp [Sign.apply]

theorem toNat_ofNatClamp (n : ℕ) : (UInt64.ofNatClamp n).toNat = min n (2 ^ 64 - 1) := by
  rw [UInt64.ofNatClamp]
  split
  · rename_i h
    have hlt : n < 2 ^ 64 := h
    show n = _
    omega
  · rename_i h
    have hle : 2 ^ 64 ≤ n := not_lt.mp h
    rw [min_eq_right (by omega)]
    rfl

/-- The conversion of a number cuts it down to an integer, and that to 64 bits. -/
theorem toNat_toUInt64 (hx : rational? x = some q) : x.toUInt64.toNat = min ⌊q⌋₊ (2 ^ 64 - 1) := by
  show (UInt64.ofNatClamp (x.toModel.unpack.toInt 0 (UInt64.size - 1)).toNat).toNat = _
  rw [toNat_ofNatClamp, toNat_toInt_unpack hx]

end FloatWord
