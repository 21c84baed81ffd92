import FloatWord.Proofs.Double

/-!
# Proofs — Nearest — rounding a number to a double

`IsNearest s q y` names a double without computing it.  Here is that it names exactly one
(`IsNearest.unique`), which one that is in terms of digits (`isNearest_ofDigits`), that a number
which is a double is rounded to itself (`isNearest_of_rational?`), and where the two ends of the
range lie: an infinity from `overflowThreshold` on (`IsNearest.isInf_iff`), a zero up to half the
smallest positive double (`IsNearest.rational?_eq_zero_iff`).
-/

namespace FloatWord

variable {s : Bool} {p q : ℚ} {x y : Float}

/-! ### The upper end of the ladder -/

/-- The threshold is halfway between the two highest places. -/
theorem overflowThreshold_eq :
    2 * overflowThreshold = (Digits.ofWord (infinityPlace - 1)).value +
      (Digits.ofWord infinityPlace).value := by
  have h : (2 : ℚ) ^ 971 = 2 * 2 ^ 970 := pow_succ' 2 970
  rw [overflowThreshold, Digits.value_ofWord_pred_infinityPlace,
    Digits.value_ofWord_infinityPlace, h]
  generalize (2 : ℚ) ^ 1024 = b
  generalize (2 : ℚ) ^ 970 = a
  ring

theorem Digits.Nearest.infinityPlace_le_iff {d : Digits} (h : d.Nearest q) :
    infinityPlace ≤ d.word ↔ overflowThreshold ≤ q := by
  have hthr := overflowThreshold_eq
  have hlow := h (ofWord (infinityPlace - 1))
  have hhigh := h (ofWord infinityPlace)
  have hlt : (ofWord (infinityPlace - 1)).value < (ofWord infinityPlace).value := by
    rw [value_lt_value, word_ofWord, word_ofWord]
    decide
  constructor
  · intro hd
    by_contra hq
    have hv : (ofWord infinityPlace).value ≤ d.value := by rwa [value_le_value, word_ofWord]
    have hfar : |q - (ofWord (infinityPlace - 1)).value| < |q - d.value| := by
      rw [abs_sub_comm q d.value, abs_of_pos (a := d.value - q) (by linarith), abs_lt]
      constructor <;> linarith
    exact absurd hlow.1 (not_le.mpr hfar)
  · intro hq
    by_contra hd
    have hv : d.value ≤ (ofWord (infinityPlace - 1)).value := by
      rw [value_le_value, word_ofWord]
      omega
    have hle : |q - (ofWord infinityPlace).value| ≤ |q - d.value| := by
      rw [abs_of_pos (a := q - d.value) (by linarith), abs_le]
      constructor <;> linarith
    have heq := le_antisymm hhigh.1 hle
    rcases hhigh.2 heq with hd' | heven
    · rw [hd', word_ofWord] at hd
      exact hd le_rfl
    · -- the tie is with the highest digits, and these are odd
      have hmid : (ofWord (infinityPlace - 1)).value ≤ d.value := by
        rw [abs_of_pos (a := q - d.value) (by linarith)] at heq
        rcases abs_cases (q - (ofWord infinityPlace).value) with ⟨e, -⟩ | ⟨e, -⟩ <;> linarith
      rw [value_injective (le_antisymm hv hmid)] at heven
      revert heven
      decide

/-! ### The nearest double in digits -/

theorem abs_signed_sub_signed (s : Bool) (p q : ℚ) : |signed s p - signed s q| = |p - q| := by
  cases s
  · rfl
  · show |-p - -q| = _
    rw [neg_sub_neg, abs_sub_comm]

/-- Under different signs two nonnegative numbers lie further apart. -/
theorem abs_sub_le_signed (hp : 0 ≤ p) (hq : 0 ≤ q) (s s' : Bool) :
    |p - q| ≤ |signed s p - signed s' q| := by
  have h := abs_abs_sub_abs_le (signed s p) (signed s' q)
  rwa [abs_signed, abs_signed, abs_of_nonneg hp, abs_of_nonneg hq] at h

/-- The last bit of the word is the last bit of the significand. -/
theorem toBits_and_one_ofDigits {d : Digits} (h : d.word < infinityPlace) :
    (ofDigits s d).toBits &&& 1 = 0 ↔ Even d.significand := by
  rw [← UInt64.toNat_inj, UInt64.toNat_and, toNat_toBits_ofDigits, min_eq_left h.le,
    UInt64.toNat_one, UInt64.toNat_zero, Nat.and_one_is_mod, ← Digits.even_word_iff, Nat.even_iff]
  cases s <;> simp only [Bool.false_eq_true, if_true, if_false] <;> omega

/-- A number and its negative are equally far from zero alone. -/
theorem Digits.Nearest.signed_value_eq {d : Digits} {s s' : Bool} (h : d.Nearest q) (hq : 0 ≤ q)
    (heq : |q - d.value| = |signed s q - signed s' d.value|) :
    signed s d.value = signed s' d.value := by
  have hd := d.value_nonneg
  by_cases hs : s' = s
  · rw [hs]
  have hsum : |signed s q - signed s' d.value| = q + d.value := by
    rw [Bool.eq_not_of_ne hs, signed_not, sub_neg_eq_add]
    cases s
    · exact abs_of_nonneg (add_nonneg hq hd)
    · show |-q + -d.value| = _
      rw [← neg_add, abs_neg, abs_of_nonneg (add_nonneg hq hd)]
  have hzero : |q - d.value| ≤ q := by
    have hle := (h (.ofWord 0)).1
    rwa [value_ofWord_zero, sub_zero, abs_of_nonneg hq] at hle
  have hv : d.value = 0 := by linarith
  rw [hv, signed_zero, signed_zero]

/-- Digits nearest to a number make the double nearest to it. -/
theorem isNearest_ofDigits {d : Digits} (hq : 0 ≤ q) (h : d.Nearest q) (s : Bool) :
    IsNearest s (signed s q) (ofDigits s d) := by
  refine ⟨isNegative_ofDigits s d, ?_⟩
  rw [abs_signed, abs_of_nonneg hq]
  split
  · rename_i hthr
    rw [isInf_ofDigits]
    exact decide_eq_true (h.infinityPlace_le_iff.mpr hthr)
  rename_i hthr
  have hd : d.word < infinityPlace := not_le.mp (mt h.infinityPlace_le_iff.mp hthr)
  refine ⟨_, rational?_ofDigits hd, fun z w hz => ?_⟩
  obtain ⟨s', d', -, -, rfl⟩ := exists_ofDigits_of_rational? hz
  have hfar := abs_sub_le_signed hq d'.value_nonneg s s'
  obtain ⟨hle, htie⟩ := h d'
  rw [abs_signed_sub_signed]
  refine ⟨hle.trans hfar, fun heq => ?_⟩
  rw [toBits_and_one_ofDigits hd]
  rcases htie (le_antisymm hle (hfar.trans heq.ge)) with rfl | heven
  · exact .inl (h.signed_value_eq hq heq)
  · exact .inr heven

/-- A number that is a double is rounded to it. -/
theorem isNearest_of_rational? (hx : rational? x = some p) : IsNearest (isNegative x) p x := by
  obtain ⟨s, d, -, rfl, rfl⟩ := exists_ofDigits_of_rational? hx
  rw [isNegative_ofDigits]
  exact isNearest_ofDigits d.value_nonneg d.nearest_value s

/-! ### There is only one -/

theorem eq_infinity_of_isInf (h : x.isInf = true) :
    x = if isNegative x then -infinity else infinity := by
  have hnan : x.isNaN = false := by
    rw [Float.isInf, Float.Model.isInf] at h
    rw [Float.isNaN, Float.Model.isNaN]
    cases hu : x.toModel.unpack with
    | notANumber => rw [hu] at h; cases h
    | infinity s | zero s | finite s m e hm => rfl
  obtain ⟨s, d, -, rfl⟩ := exists_eq_ofDigits hnan
  rw [isInf_ofDigits, decide_eq_true_eq] at h
  rw [isNegative_ofDigits, ofDigits_of_le h]

theorem IsNearest.isNaN_eq (h : IsNearest s q y) : y.isNaN = false := by
  obtain ⟨-, h⟩ := h
  split at h
  · rw [eq_infinity_of_isInf h]
    cases isNegative y <;> decide
  · obtain ⟨v, hv, -⟩ := h
    exact isNaN_of_rational? hv

/-- No number has two nearest doubles of one sign. -/
theorem IsNearest.unique (hx : IsNearest s q x) (hy : IsNearest s q y) : x = y := by
  obtain ⟨hsx, hx⟩ := hx
  obtain ⟨hsy, hy⟩ := hy
  split at hx
  · rename_i hthr
    rw [if_pos hthr] at hy
    rw [eq_infinity_of_isInf hx, eq_infinity_of_isInf hy, hsx, hsy]
  rename_i hthr
  rw [if_neg hthr] at hy
  obtain ⟨v, hv, hx⟩ := hx
  obtain ⟨v', hv', hy⟩ := hy
  have heq : |q - v| = |q - v'| := le_antisymm (hx y v' hv').1 (hy x v hv).1
  by_contra hne
  have hvv : v ≠ v' := fun e => hne (eq_of_rational? hv (e ▸ hv') (hsx.trans hsy.symm))
  have hex := ((hx y v' hv').2 heq).resolve_left hvv
  have hey := ((hy x v hv).2 heq.symm).resolve_left hvv.symm
  obtain ⟨s₁, d, hd, rfl, rfl⟩ := exists_ofDigits_of_rational? hv
  obtain ⟨s₂, d', hd', rfl, rfl⟩ := exists_ofDigits_of_rational? hv'
  rw [isNegative_ofDigits] at hsx hsy
  obtain rfl : s₁ = s₂ := hsx.trans hsy.symm
  rw [toBits_and_one_ofDigits hd] at hex
  rw [toBits_and_one_ofDigits hd'] at hey
  -- seen from the sign, both are nonnegative
  obtain ⟨p, rfl⟩ : ∃ p, q = signed s₁ p := ⟨signed s₁ q, by cases s₁ <;> simp [signed]⟩
  have closer : ∀ {m : Digits}, m.word < infinityPlace →
      |p - d.value| ≤ |p - m.value| ∧ |p - d'.value| ≤ |p - m.value| := fun hm => by
    have h₁ := (hx _ _ (rational?_ofDigits (s := s₁) hm)).1
    have h₂ := (hy _ _ (rational?_ofDigits (s := s₁) hm)).1
    rw [abs_signed_sub_signed, abs_signed_sub_signed] at h₁ h₂
    exact ⟨h₁, h₂⟩
  rw [abs_signed_sub_signed, abs_signed_sub_signed] at heq
  have hdd : d ≠ d' := fun e => hne (by rw [e])
  rcases Nat.lt_or_gt_of_ne (Digits.word_injective.ne hdd) with hlt | hlt
  · obtain ⟨m, hm, hlt⟩ := Digits.exists_closer hlt hex hey heq
    exact absurd (closer (hm.trans hd')).1 (not_le.mpr hlt)
  · obtain ⟨m, hm, hlt⟩ := Digits.exists_closer hlt hey hex heq.symm
    exact absurd (closer (hm.trans hd)).2 (not_le.mpr hlt)

/-! ### The two ends of the range -/

theorem IsNearest.isInf_iff (h : IsNearest s q y) : y.isInf = true ↔ overflowThreshold ≤ |q| := by
  obtain ⟨-, h⟩ := h
  split at h
  · rename_i hthr
    exact ⟨fun _ => hthr, fun _ => h⟩
  · rename_i hthr
    obtain ⟨v, hv, -⟩ := h
    rw [isInf_of_rational? hv]
    exact ⟨fun h => absurd h Bool.false_ne_true, fun h => absurd h hthr⟩

/-- Beyond the threshold all numbers are rounded alike. -/
theorem IsNearest.of_overflow (h : IsNearest s q y) (hq : overflowThreshold ≤ |q|)
    (hp : overflowThreshold ≤ |p|) : IsNearest s p y :=
  ⟨h.1, by rw [if_pos hp]; exact h.isInf_iff.mpr hq⟩

/-- The smallest positive number that is not rounded to 0 lies above this one. -/
def underflowThreshold : ℚ := 2 ^ (-1075 : ℤ)

theorem underflowThreshold_pos : 0 < underflowThreshold := zpow_pos two_pos _

theorem two_mul_underflowThreshold : 2 * underflowThreshold = (Digits.ofWord 1).value := by
  rw [underflowThreshold, Digits.value_ofWord_one, ← zpow_one_add₀ two_ne_zero]
  rfl

theorem underflowThreshold_lt_overflowThreshold : underflowThreshold < overflowThreshold := by
  have h₁ : (Digits.ofWord 1).value ≤ (Digits.ofWord (infinityPlace - 1)).value := by
    rw [Digits.value_le_value, Digits.word_ofWord, Digits.word_ofWord]
    decide
  have h₂ : (0 : ℚ) < (Digits.ofWord infinityPlace).value := by
    rw [Digits.value_pos_iff, Digits.word_ofWord]
    decide
  linarith [two_mul_underflowThreshold, overflowThreshold_eq]

/-- A double other than the zeros is at least the smallest positive one. -/
theorem two_mul_underflowThreshold_le (hx : rational? x = some p) (hp : p ≠ 0) :
    2 * underflowThreshold ≤ |p| := by
  obtain ⟨s, d, -, rfl, rfl⟩ := exists_ofDigits_of_rational? hx
  have hd : 0 < d.value := lt_of_le_of_ne d.value_nonneg fun h => hp (by rw [← h, signed_zero])
  rw [abs_signed, abs_of_pos hd, two_mul_underflowThreshold, Digits.value_le_value,
    Digits.word_ofWord]
  exact d.value_pos_iff.mp hd

/-- A zero is nearest to every number up to the threshold. -/
theorem isNearest_of_underflow (hy : rational? y = some 0) (hq : |q| ≤ underflowThreshold) :
    IsNearest (isNegative y) q y := by
  refine ⟨rfl, ?_⟩
  rw [if_neg (not_le.mpr (hq.trans_lt underflowThreshold_lt_overflowThreshold))]
  refine ⟨0, hy, fun z w hz => ?_⟩
  by_cases hw : w = 0
  · rw [hw]
    exact ⟨le_rfl, fun _ => .inl rfl⟩
  have hle := two_mul_underflowThreshold_le hz hw
  have htri : |w| ≤ |q| + |q - w| := by
    rw [abs_sub_comm]
    simpa using abs_add_le q (w - q)
  refine ⟨by rw [sub_zero]; linarith, fun _ => .inr ?_⟩
  obtain ⟨s, d, hd, rfl, hv⟩ := exists_ofDigits_of_rational? hy
  have hz : d.value = 0 := by rw [← abs_of_nonneg d.value_nonneg, ← abs_signed s, ← hv, abs_zero]
  rw [toBits_and_one_ofDigits hd, (Digits.value_eq_zero_iff d).mp hz]
  decide

theorem IsNearest.rational?_eq_zero_iff (h : IsNearest s q y) :
    rational? y = some 0 ↔ |q| ≤ underflowThreshold := by
  constructor
  · intro hy
    obtain ⟨-, h⟩ := h
    split at h
    · rw [isInf_of_rational? hy] at h
      cases h
    obtain ⟨v, hv, h⟩ := h
    obtain rfl : v = 0 := Option.some.inj (hv.symm.trans hy)
    -- the smallest double on the side of `q` is not closer than 0
    have hone := rational?_ofDigits (s := decide (q < 0)) (d := .ofWord 1) (by decide)
    have hle := (h _ _ hone).1
    have htwo := two_mul_underflowThreshold
    have hpos : 0 < (Digits.ofWord 1).value := (Digits.value_pos_iff _).mpr (by decide)
    rw [sub_zero] at hle
    rcases lt_or_ge q 0 with hq | hq
    · rw [decide_eq_true hq, signed, if_pos rfl, abs_of_neg hq] at hle
      rw [abs_of_neg hq]
      rcases abs_cases (q - -(Digits.ofWord 1).value) with ⟨e, -⟩ | ⟨e, -⟩ <;> linarith
    · rw [decide_eq_false (not_lt.mpr hq), signed, if_neg Bool.false_ne_true, abs_of_nonneg hq]
        at hle
      rw [abs_of_nonneg hq]
      rcases abs_cases (q - (Digits.ofWord 1).value) with ⟨e, -⟩ | ⟨e, -⟩ <;> linarith
  · intro hq
    have hz : rational? (ofDigits s (.ofWord 0)) = some 0 := by
      rw [rational?_ofDigits (by decide), Digits.value_ofWord_zero, signed_zero]
    have hzero := isNearest_of_underflow hz hq
    rw [isNegative_ofDigits] at hzero
    rw [h.unique hzero, hz]

/-- Rounding does not leave an interval around zero that ends in doubles. -/
theorem IsNearest.exists_abs_le {z : Float} {b : ℚ} (h : IsNearest s q y)
    (hz : rational? z = some b) (hq : |q| ≤ b) : ∃ v, rational? y = some v ∧ |v| ≤ b := by
  have hthr : ¬ overflowThreshold ≤ |q| := fun hthr => by
    have hb : overflowThreshold ≤ |b| := (hthr.trans hq).trans (le_abs_self b)
    have hinf := (isNearest_of_rational? hz).isInf_iff.mpr hb
    rw [isInf_of_rational? hz] at hinf
    exact Bool.false_ne_true hinf
  obtain ⟨-, h⟩ := h
  rw [if_neg hthr] at h
  obtain ⟨v, hv, h⟩ := h
  refine ⟨v, hv, ?_⟩
  obtain ⟨hlo, hhi⟩ := abs_le.mp hq
  have hup := (h z b hz).1
  have hdown := (h (-z) (-b) (rational?_neg hz)).1
  rw [abs_sub_comm q b, abs_of_nonneg (sub_nonneg.mpr hhi)] at hup
  rw [sub_neg_eq_add, abs_of_nonneg (a := q + b) (by linarith)] at hdown
  rw [abs_le]
  constructor
  · linarith [le_abs_self (q - v)]
  · linarith [neg_abs_le (q - v)]

end FloatWord
