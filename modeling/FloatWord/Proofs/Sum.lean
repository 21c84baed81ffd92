import FloatWord.Proofs.Representable

/-!
# Proofs — Sum — the host rounds its sums to nearest

The host brings two numbers over the lower of their exponents, adds the significands as integers,
and rounds the result once.  So the sum of two doubles is the double nearest to the sum of their
numbers, with its sign (`isNearest_add`), without rounding where that is a double
(`rational?_add`).  A difference is the sum with the negative (`sub_ofDigits`).
-/

namespace FloatWord
open Float.Model (UnpackedFloat Format)
open Float.Model.UnpackedFloat

variable {x y : Float} {p q : ℚ} {s s' : Bool} {d d' : Digits}

/-- Digits brought over a lower exponent are the same number. -/
theorem Digits.apply_decreaseExponent (d : Digits) (s : Bool) {t : ℤ} (ht : t ≤ d.exponent) :
    (((toSign s).apply (decreaseExponent d.significand d.exponent t).1 : ℤ) : ℚ) * 2 ^ t =
      signed s d.value := by
  obtain ⟨k, hk⟩ : ∃ k : ℕ, d.exponent - t = k := Int.eq_ofNat_of_zero_le (by omega)
  have hvalue : ((d.significand * 2 ^ k : ℕ) : ℚ) * 2 ^ t = d.value := by
    rw [Digits.value, show d.exponent = k + t by omega, zpow_add₀ two_ne_zero, zpow_natCast]
    push_cast
    ring
  rw [decreaseExponent, hk, Int.toNat_natCast, Nat.shiftLeft_eq, ← hvalue]
  cases s
  · rfl
  · show ((-((d.significand * 2 ^ k : ℕ) : ℤ) : ℤ) : ℚ) * 2 ^ t = -(_ * 2 ^ t)
    rw [Int.cast_neg, neg_mul, Int.cast_natCast]

theorem ofDigits_add_ofDigits (s s' : Bool) (d d' : Digits) :
    ofDigits s d + ofDigits s' d' =
      Float.ofModel (Float.Model.pack (add Format.binary64 (d.unpacked s) (d'.unpacked s'))) := by
  rw [← unpack_ofDigits, ← unpack_ofDigits]
  rfl

/-- The sum of two significands over one exponent, in form. -/
theorem exists_add_eq_of_ne_zero (h : d.word < infinityPlace) (h' : d'.word < infinityPlace)
    (h₀ : d.significand ≠ 0) (h₀' : d'.significand ≠ 0) :
    ∃ t c, signed t |signed s d.value + signed s' d'.value| =
        signed s d.value + signed s' d'.value ∧
      c.Nearest |signed s d.value + signed s' d'.value| ∧
      ofDigits s d + ofDigits s' d' = ofDigits t c := by
  obtain ⟨e, he⟩ : ∃ e, min d.exponent d'.exponent = e := ⟨_, rfl⟩
  obtain ⟨z, hz⟩ : ∃ z : ℤ, (toSign s).apply (decreaseExponent d.significand d.exponent e).1 +
    (toSign s').apply (decreaseExponent d'.significand d'.exponent e).1 = z := ⟨_, rfl⟩
  have hsum : signed s d.value + signed s' d'.value = (z : ℚ) * 2 ^ e := by
    rw [← hz, Int.cast_add, add_mul, d.apply_decreaseExponent s (by omega),
      d'.apply_decreaseExponent s' (by omega)]
  have hsign : z < 0 ↔ (z : ℚ) * 2 ^ e < 0 := by rw [mul_zpow_neg_iff, Int.cast_lt_zero]
  obtain ⟨c, hc, hpack⟩ := exists_normalize z e
  rw [hsum]
  refine ⟨decide (z < 0), c, ?_, by rwa [abs_mul_zpow], ?_⟩
  · simp only [hsign]
    exact signed_abs _
  · rw [ofDigits_add_ofDigits, ← hpack, ← hz, ← he, Digits.unpacked, Digits.unpacked, if_pos h,
      if_pos h', dif_neg h₀, dif_neg h₀']
    rfl

/-- The sum of two doubles has the digits nearest to the sum, and its sign. -/
theorem exists_add_eq (h : d.word < infinityPlace) (h' : d'.word < infinityPlace) (s s' : Bool) :
    ∃ t c, signed t |signed s d.value + signed s' d'.value| =
        signed s d.value + signed s' d'.value ∧
      c.Nearest |signed s d.value + signed s' d'.value| ∧
      ofDigits s d + ofDigits s' d' = ofDigits t c := by
  have habs : ∀ (c : Digits) t, |signed t c.value| = c.value := fun c t => by
    rw [abs_signed, abs_of_nonneg c.value_nonneg]
  by_cases h₀ : d.significand = 0
  · have hzero : d.value = 0 := (Digits.value_eq_zero_iff d).mpr h₀
    by_cases h₀' : d'.significand = 0
    · -- of two zeros, the negative one if both are
      have hzero' : d'.value = 0 := (Digits.value_eq_zero_iff d').mpr h₀'
      rw [hzero, hzero', signed_zero, signed_zero, add_zero, abs_zero]
      refine ⟨s && s', .ofWord 0, signed_zero _, ?_, ?_⟩
      · rw [← Digits.value_ofWord_zero]
        exact Digits.nearest_value _
      · rw [ofDigits_add_ofDigits, ← pack_zero, Digits.unpacked, Digits.unpacked, if_pos h,
          if_pos h', dif_pos h₀, dif_pos h₀']
        cases s <;> cases s' <;> rfl
    · rw [hzero, signed_zero, zero_add, habs]
      refine ⟨s', d', rfl, d'.nearest_value, ?_⟩
      rw [ofDigits_add_ofDigits, ← pack_unpacked s', Digits.unpacked, Digits.unpacked, if_pos h,
        if_pos h', dif_pos h₀, dif_neg h₀']
      rfl
  · by_cases h₀' : d'.significand = 0
    · rw [(Digits.value_eq_zero_iff d').mpr h₀', signed_zero, add_zero, habs]
      refine ⟨s, d, rfl, d.nearest_value, ?_⟩
      rw [ofDigits_add_ofDigits, ← pack_unpacked s, Digits.unpacked, Digits.unpacked, if_pos h,
        if_pos h', dif_neg h₀, dif_pos h₀']
      rfl
    · exact exists_add_eq_of_ne_zero h h' h₀ h₀'

/-- The sum is the double nearest to the sum of the numbers, with its sign. -/
theorem isNearest_add (hx : rational? x = some p) (hy : rational? y = some q) :
    ∃ s, signed s |p + q| = p + q ∧ IsNearest s (p + q) (x + y) := by
  obtain ⟨s, d, h, rfl, rfl⟩ := exists_ofDigits_of_rational? hx
  obtain ⟨s', d', h', rfl, rfl⟩ := exists_ofDigits_of_rational? hy
  obtain ⟨t, c, hsign, hc, hadd⟩ := exists_add_eq h h' s s'
  have hround := isNearest_ofDigits (abs_nonneg _) hc t
  rw [hsign] at hround
  exact ⟨t, hsign, by rwa [hadd]⟩

theorem rational?_add (hx : rational? x = some p) (hy : rational? y = some q)
    (h : Representable (p + q)) : rational? (x + y) = some (p + q) := by
  obtain ⟨s, -, hround⟩ := isNearest_add hx hy
  exact hround.rational?_eq h

/-! ### Differences -/

/-- To take digits away is to add them under the other sign. -/
theorem sub_unpacked (u : UnpackedFloat) (s : Bool) (d : Digits) :
    sub Format.binary64 u (d.unpacked s) = add Format.binary64 u (d.unpacked (!s)) := by
  unfold Digits.unpacked
  split_ifs with h h₀
  · cases u <;> cases s <;> rfl
  · cases u with
    | finite t m e hm =>
        cases s
        · rfl
        · exact congrArg (fun z => UnpackedFloat.normalize Format.binary64 z _ .positive)
            (Int.sub_neg _ _)
    | infinity t | zero t | notANumber => cases s <;> rfl
  · cases u <;> cases s <;> rfl

theorem sub_ofDigits (x : Float) (s : Bool) (d : Digits) :
    x - ofDigits s d = x + ofDigits (!s) d := by
  show Float.ofModel (Float.Model.pack (sub Format.binary64 x.toModel.unpack _)) =
    Float.ofModel (Float.Model.pack (add Format.binary64 x.toModel.unpack _))
  rw [unpack_ofDigits, unpack_ofDigits, sub_unpacked]

theorem rational?_sub (hx : rational? x = some p) (hy : rational? y = some q)
    (h : Representable (p - q)) : rational? (x - y) = some (p - q) := by
  have hy' := rational?_neg hy
  obtain ⟨s, d, -, rfl, -⟩ := exists_ofDigits_of_rational? hy
  rw [neg_ofDigits] at hy'
  rw [sub_eq_add_neg] at h
  rw [sub_ofDigits, sub_eq_add_neg]
  exact rational?_add hx hy' h

end FloatWord
