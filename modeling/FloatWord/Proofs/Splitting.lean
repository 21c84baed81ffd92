import FloatWord.Split
import FloatWord.Proofs.Class

/-!
# Proofs — Splitting — a split keeps the number, without rounding

A split stands for its fraction times a power of two.  Every move of `Split.ofFloatVia` multiplies
the fraction by a power of two and takes it out of the exponent, so the number stays
(`Split.Stands.move`); and none rounds, since the fraction is a normal number from the lift on.
The loops close in on `[1, 2)` from above and on `[0.5, 1)` from below, one binary place of the
exponent at a time (`foldlM_lowerVia_eq`, `foldlM_raiseVia_eq`).
-/

namespace FloatWord
namespace Split

variable {x c : Float} {p q f : ℚ} {s : Split} {j : ℤ}

/-- The fraction is the number `f`, and the split stands for `q`. -/
structure Stands (s : Split) (f q : ℚ) : Prop where
  fraction : rational? s.fraction = some f
  value : f * 2 ^ s.exponent.toInt = q

theorem stands_zero (hx : rational? x = some q) : Stands ⟨x, 0⟩ q q :=
  ⟨hx, by rw [Int32.toInt_zero, zpow_zero, mul_one]⟩

theorem Stands.pos (h : s.Stands f q) (hq : 0 < q) : 0 < f := by
  rw [← h.value] at hq
  exact pos_of_mul_pos_left hq (by positivity)

theorem Stands.representable (h : s.Stands f q) : Representable f := ⟨_, h.fraction⟩

/-- Two doubles are not far apart, and neither is the exponent between them. -/
theorem Stands.exponent_bounds (h : s.Stands f q) (hq : Representable q) (hpos : 0 < q) :
    -2099 < s.exponent.toInt ∧ s.exponent.toInt < 2098 := by
  have hf := h.pos hpos
  constructor
  · by_contra he
    have hlow := h.representable.abs_le_underflowThreshold (not_lt.mp he)
    obtain ⟨x, hx⟩ := hq
    have hmin := two_mul_underflowThreshold_le hx hpos.ne'
    rw [h.value] at hlow
    linarith [underflowThreshold_pos]
  · by_contra he
    have hhigh := h.representable.two_pow_1024_le hf.ne' (not_lt.mp he)
    rw [h.value] at hhigh
    exact absurd hq.abs_lt (not_lt.mpr hhigh)

section Moves
variable {M : Type → Type} [Monad M] {mul : Float → Float → M Float}

/-- A power of two goes from the exponent to the fraction. -/
theorem Stands.move (h : s.Stands f q) (hm : MulExact mul) (hf : 0 < f)
    (hc : rational? c = some (2 ^ j)) (hrep : Representable (f * 2 ^ j)) {e : Int32}
    (he : e.toInt = s.exponent.toInt - j) :
    ∃ z, mul s.fraction c = pure z ∧ Stands ⟨z, e⟩ (f * 2 ^ j) q := by
  obtain ⟨z, hz, hv⟩ := hm.exists_eq h.fraction hc hf (by positivity) hrep
  refine ⟨z, hz, hv, ?_⟩
  rw [he, mul_zpow_mul_zpow, add_sub_cancel, h.value]

/-! ### The two loops -/

variable [IntegerSteps M]

section Exponents
variable {e : Int32} {k : ℕ}

theorem toInt_shift (hk : k ≤ 512) : (Int32.ofNat k).toInt = k :=
  Int32.toInt_ofNat_of_lt (by omega)

theorem toInt_add_ofNat (he : -2099 < e.toInt ∧ e.toInt < 2098) (hk : k ≤ 512) :
    (e + Int32.ofNat k).toInt = e.toInt - -k := by
  have hofNat := toInt_shift hk
  rw [toInt_add_of_bounds (by omega) (by omega), hofNat, sub_neg_eq_add]

theorem toInt_sub_ofNat (he : -2099 < e.toInt ∧ e.toInt < 2098) (hk : k ≤ 512) :
    (e - Int32.ofNat k).toInt = e.toInt - k := by
  have hofNat := toInt_shift hk
  rw [toInt_sub_of_bounds (by omega) (by omega), hofNat]

/-- The exponent of a split has room for every place of the table. -/
theorem add_ofNat (he : -2099 < e.toInt ∧ e.toInt < 2098) (hk : k ≤ 512) :
    IntegerSteps.add e (Int32.ofNat k) = (pure (e + Int32.ofNat k) : M Int32) :=
  IntegerSteps.add_eq (by rw [toInt_add_ofNat he hk, toInt_shift hk, sub_neg_eq_add])

theorem sub_ofNat (he : -2099 < e.toInt ∧ e.toInt < 2098) (hk : k ≤ 512) :
    IntegerSteps.sub e (Int32.ofNat k) = (pure (e - Int32.ofNat k) : M Int32) :=
  IntegerSteps.sub_eq (by rw [toInt_sub_ofNat he hk, toInt_shift hk])

end Exponents

theorem minNormal_le_of_half_le {f : ℚ} (hf : 1 / 2 ≤ f) : (2 : ℚ) ^ (-1022 : ℤ) ≤ |f| :=
  calc (2 : ℚ) ^ (-1022 : ℤ) ≤ 2 ^ (-1 : ℤ) := zpow_le_zpow_right₀ one_le_two (by decide)
    _ = 1 / 2 := by rw [zpow_neg_one, one_div]
    _ ≤ f := hf
    _ ≤ |f| := le_abs_self f

/-- Twice the binary places are the square of the power. -/
theorem two_pow_two_pow_succ (k : ℕ) : (2 : ℚ) ^ 2 ^ (k + 1) = 2 ^ 2 ^ k * 2 ^ 2 ^ k := by
  rw [← pow_add, ← two_mul, ← pow_succ']

/-- On the way down to `[1, 2)`: the exponent above 1 fits into the lowest `k` binary places. -/
def Lowered (q : ℚ) (k : ℕ) (s : Split) : Prop :=
  ∃ f, s.Stands f q ∧ 1 ≤ f ∧ f < 2 ^ 2 ^ k

/-- On the way up to `[0.5, 1)`: the exponent below 1 fits into the lowest `k` binary places. -/
def Raised (q : ℚ) (k : ℕ) (s : Split) : Prop :=
  ∃ f, s.Stands f q ∧ f < 1 ∧ 1 ≤ f * 2 ^ 2 ^ k

variable [LawfulMonad M]

theorem lowerVia_eq (hm : MulExact mul) (hq : Representable q) (hpos : 0 < q) {k : ℕ}
    (hk : k < 10) (hs : s.Lowered q (k + 1)) :
    ∃ t, lowerVia mul s (Step.ofShift (2 ^ k)) = pure t ∧ t.Lowered q k := by
  obtain ⟨f, h, hf, hf'⟩ := hs
  have htaken := le_iff (rational?_up hk) h.fraction
  rw [zpow_natCast] at htaken
  rw [lowerVia, shift_ofShift]
  by_cases hle : (2 : ℚ) ^ 2 ^ k ≤ f
  · have hdiv : f * 2 ^ (-(2 ^ k : ℕ) : ℤ) = f / 2 ^ 2 ^ k := by
      rw [zpow_neg, zpow_natCast, div_eq_mul_inv]
    have hge : 1 ≤ f / 2 ^ 2 ^ k := (one_le_div (by positivity)).mpr hle
    have hlt : f / 2 ^ 2 ^ k < 2 ^ 2 ^ k := by
      rwa [div_lt_iff₀ (by positivity), ← two_pow_two_pow_succ]
    have hrep := h.representable.mul_zpow_of_le (j := -(2 ^ k : ℕ))
      (neg_nonpos.mpr (Nat.cast_nonneg _)) (minNormal_le_of_half_le (by rw [hdiv]; linarith))
    have hroom := h.exponent_bounds hq hpos
    obtain ⟨z, hz, hst⟩ := h.move hm (h.pos hpos) (rational?_down hk) hrep
      (toInt_add_ofNat hroom (two_pow_le hk))
    rw [hdiv] at hst
    refine ⟨_, ?_, _, hst, hge, hlt⟩
    rw [if_pos (htaken.mpr hle), hz, pure_bind, add_ofNat hroom (two_pow_le hk), pure_bind]
  · exact ⟨s, if_neg (mt htaken.mp hle), f, h, hf, not_le.mp hle⟩

theorem raiseVia_eq (hm : MulExact mul) (hq : Representable q) (hpos : 0 < q) {k : ℕ}
    (hk : k < 10) (hs : s.Raised q (k + 1)) :
    ∃ t, raiseVia mul s (Step.ofShift (2 ^ k)) = pure t ∧ t.Raised q k := by
  obtain ⟨f, h, hf, hf'⟩ := hs
  have htaken := lt_iff h.fraction (rational?_down hk)
  rw [zpow_neg, zpow_natCast, ← one_div, lt_div_iff₀ (by positivity)] at htaken
  rw [raiseVia, shift_ofShift]
  by_cases hlt : f * 2 ^ 2 ^ k < 1
  · have hmul : f * 2 ^ ((2 ^ k : ℕ) : ℤ) = f * 2 ^ 2 ^ k := by rw [zpow_natCast]
    have hge : 1 ≤ f * 2 ^ 2 ^ k * 2 ^ 2 ^ k := by
      rwa [mul_assoc, ← two_pow_two_pow_succ]
    have hfin : |f * 2 ^ ((2 ^ k : ℕ) : ℤ)| < 2 ^ 1024 := by
      have hf := h.pos hpos
      rw [hmul, abs_of_pos (by positivity)]
      exact hlt.trans_le (one_le_pow₀ one_le_two)
    have hrep := h.representable.mul_zpow (.inl (by positivity)) hfin
    have hroom := h.exponent_bounds hq hpos
    obtain ⟨z, hz, hst⟩ := h.move hm (h.pos hpos) (rational?_up hk) hrep
      (toInt_sub_ofNat hroom (two_pow_le hk))
    rw [hmul] at hst
    refine ⟨_, ?_, _, hst, hlt, hge⟩
    rw [if_pos (htaken.mpr hlt), hz, pure_bind, sub_ofNat hroom (two_pow_le hk), pure_bind]
  · exact ⟨s, if_neg (mt htaken.mp hlt), f, h, hf, not_lt.mp hlt⟩

theorem Stands.lowered (h : s.Stands f q) (hpos : 0 < q) (hf : 1 ≤ f) : s.Lowered q 10 := by
  have hfin := h.representable.abs_lt
  rw [abs_of_pos (h.pos hpos)] at hfin
  exact ⟨f, h, hf, hfin⟩

theorem Stands.raised (h : s.Stands f q) (hf : f < 1) (hf' : 2 ^ (-1022 : ℤ) ≤ f) :
    s.Raised q 10 := by
  refine ⟨f, h, hf, ?_⟩
  calc (1 : ℚ) ≤ 2 ^ (-1022 : ℤ) * 2 ^ 2 ^ 10 := by
        rw [← zpow_natCast, ← zpow_add₀ two_ne_zero]
        exact one_le_zpow₀ one_le_two (by decide)
    _ ≤ f * 2 ^ 2 ^ 10 := by gcongr

/-- The steps reach `[1, 2)` from above. -/
theorem foldlM_lowerVia_eq (hm : MulExact mul) (hq : Representable q) (hpos : 0 < q)
    (h : s.Stands f q) (hf : 1 ≤ f) :
    ∃ t g, steps.foldlM (lowerVia mul) s = pure t ∧ t.Stands g q ∧ 1 ≤ g ∧ g < 2 := by
  obtain ⟨t, ht, g, hst, hg, hg'⟩ :=
    exists_foldlM_binarySteps (fun k hk s hs => lowerVia_eq hm hq hpos hk hs) (h.lowered hpos hf)
  exact ⟨t, g, ht, hst, hg, by simpa using hg'⟩

/-- The steps reach `[0.5, 1)` from below. -/
theorem foldlM_raiseVia_eq (hm : MulExact mul) (hq : Representable q) (hpos : 0 < q)
    (h : s.Stands f q) (hf : f < 1) (hf' : 2 ^ (-1022 : ℤ) ≤ f) :
    ∃ t g, steps.foldlM (raiseVia mul) s = pure t ∧ t.Stands g q ∧ 1 / 2 ≤ g ∧ g < 1 := by
  obtain ⟨t, ht, g, hst, hg, hg'⟩ :=
    exists_foldlM_binarySteps (fun k hk s hs => raiseVia_eq hm hq hpos hk hs) (h.raised hf hf')
  rw [pow_zero, pow_one] at hg'
  exact ⟨t, g, ht, hst, by linarith, hg⟩

/-! ### The whole split -/

theorem rational?_two54 : rational? two54 = some (2 ^ (54 : ℤ)) :=
  rational?_twoPow (k := 54) (by decide)

/-- The lift: the fraction is a normal number. -/
theorem liftVia_eq (hm : MulExact mul) (hx : rational? x = some q) (hpos : 0 < q) :
    ∃ t f, liftVia mul x = pure t ∧ t.Stands f q ∧ 2 ^ (-1022 : ℤ) ≤ f := by
  have htaken := lt_iff hx rational?_minNormal
  rw [liftVia]
  by_cases hlt : q < 2 ^ (-1022 : ℤ)
  · have hmin := two_mul_underflowThreshold_le hx hpos.ne'
    rw [two_mul_underflowThreshold, Digits.value_ofWord_one, abs_of_pos hpos] at hmin
    have hge : (2 : ℚ) ^ (-1022 : ℤ) ≤ q * 2 ^ (54 : ℤ) := by
      calc (2 : ℚ) ^ (-1022 : ℤ) ≤ 2 ^ (-1074 : ℤ) * 2 ^ (54 : ℤ) := by
            rw [← zpow_add₀ two_ne_zero]
            exact zpow_le_zpow_right₀ one_le_two (by decide)
        _ ≤ q * 2 ^ (54 : ℤ) := by gcongr
    have hfin : |q * 2 ^ (54 : ℤ)| < 2 ^ 1024 := by
      rw [abs_of_pos (by positivity)]
      calc q * 2 ^ (54 : ℤ) < 2 ^ (-1022 : ℤ) * 2 ^ (54 : ℤ) := by gcongr
        _ = 2 ^ (-968 : ℤ) := by rw [← zpow_add₀ two_ne_zero]; rfl
        _ < 2 ^ 1024 := zpow_lt_two_pow_1024 (by decide)
    have hrep := Representable.mul_zpow ⟨x, hx⟩ (.inl (by decide)) hfin
    obtain ⟨z, hz, hst⟩ := (stands_zero hx).move hm hpos rational?_two54 hrep (e := -54) rfl
    have hlow : IntegerSteps.sub 0 54 = (pure (-54) : M Int32) := IntegerSteps.sub_eq rfl
    refine ⟨_, _, ?_, hst, hge⟩
    rw [if_pos (htaken.mpr hlt), hz, pure_bind, hlow, pure_bind]
  · exact ⟨_, _, if_neg (mt htaken.mp hlt), stands_zero hx, not_lt.mp hlt⟩

/-- The two loops: the fraction lies in `[0.5, 1)`. -/
theorem normalizeVia_eq (hm : MulExact mul) (hq : Representable q) (hpos : 0 < q)
    (h : s.Stands f q) (hf : 2 ^ (-1022 : ℤ) ≤ f) :
    ∃ t g, normalizeVia mul s = pure t ∧ t.Stands g q ∧ 1 / 2 ≤ g ∧ g < 1 := by
  have htaken := le_iff rational?_one h.fraction
  rw [normalizeVia]
  by_cases hle : 1 ≤ f
  · obtain ⟨t, g, ht, hst, hg, hg'⟩ := foldlM_lowerVia_eq hm hq hpos h hle
    have hhalf : g * 2 ^ (-1 : ℤ) = g / 2 := by rw [zpow_neg_one, div_eq_mul_inv]
    have hge : 1 / 2 ≤ g / 2 := by linarith
    have hrep := hst.representable.mul_zpow_of_le (j := -1) (by decide)
      (minNormal_le_of_half_le (by rwa [hhalf]))
    have hroom := hst.exponent_bounds hq hpos
    obtain ⟨z, hz, hsz⟩ := hst.move hm (hst.pos hpos) rational?_half hrep
      (toInt_add_ofNat (k := 1) hroom (by decide))
    rw [hhalf] at hsz
    have hup : IntegerSteps.add t.exponent 1 = (pure (t.exponent + 1) : M Int32) :=
      add_ofNat (k := 1) hroom (by decide)
    refine ⟨_, _, ?_, hsz, hge, by linarith⟩
    rw [if_pos (htaken.mpr hle), ht, pure_bind, hz, pure_bind, hup, pure_bind]
    rfl
  · obtain ⟨t, g, ht, hst, hg⟩ := foldlM_raiseVia_eq hm hq hpos h (not_le.mp hle) hf
    exact ⟨t, g, by rw [if_neg (mt htaken.mp hle), ht], hst, hg⟩

/-- The guard of a split lets every number but zero through, -/
theorem guard_eq_false (hx : rational? x = some q) (hq : q ≠ 0) :
    (x == 0 || x.isNaN || x == infinity || x == -infinity) = false := by
  obtain ⟨hinf, hinf'⟩ := beq_infinity_of_rational? hx
  rw [beq_zero_eq_false hx hq, isNaN_of_rational? hx, hinf, hinf']
  rfl

/-- and nothing else. -/
theorem guard_eq_true (hx : IsSpecial x) :
    (x == 0 || x.isNaN || x == infinity || x == -infinity) = true := by
  rcases hx with hx | hx | hx
  · rw [hx, Bool.or_true]
    rfl
  · rw [eq_infinity_of_isInf hx]
    cases isNegative x <;> decide
  · rw [(beq_iff hx rational?_zero).mpr rfl]
    rfl

/-- The magnitude that is split. -/
theorem rational?_unsigned (hx : rational? x = some q) :
    rational? (if x < 0 then -x else x) = some |q| := by
  have hneg := lt_iff hx rational?_zero
  split
  · rename_i h
    rw [rational?_neg hx, abs_of_neg (hneg.mp h)]
  · rename_i h
    rw [hx, abs_of_nonneg (not_lt.mp (mt hneg.mpr h))]

/-- **Splitting is exact.**  A double other than zero is the fraction of its split, of magnitude
in `[0.5, 1)`, times the power of two. -/
theorem ofFloatVia_eq (hm : MulExact mul) (hx : rational? x = some q) (hq : q ≠ 0) :
    ∃ t f, ofFloatVia mul x = pure t ∧ t.Stands f q ∧ 1 / 2 ≤ |f| ∧ |f| < 1 := by
  have hpos : 0 < |q| := abs_pos.mpr hq
  have hrep : Representable |q| := representable_abs_iff.mpr ⟨x, hx⟩
  have hneg := lt_iff hx rational?_zero
  obtain ⟨t, f, ht, hst, hf⟩ := liftVia_eq hm (rational?_unsigned hx) hpos
  obtain ⟨u, g, hu, hsu, hg, hg'⟩ := normalizeVia_eq hm hrep hpos hst hf
  have hg₀ := hsu.pos hpos
  have hrun : ofFloatVia mul x =
      pure ⟨if x < 0 then -u.fraction else u.fraction, u.exponent⟩ := by
    rw [ofFloatVia, guard_eq_false hx hq]
    show liftVia mul _ >>= _ = _
    rw [ht, pure_bind, hu, pure_bind]
  by_cases h : x < 0
  · refine ⟨_, -g, hrun, ⟨?_, ?_⟩, ?_⟩
    · rw [if_pos h, rational?_neg hsu.fraction]
    · show -g * 2 ^ u.exponent.toInt = q
      rw [neg_mul, hsu.value, abs_of_neg (hneg.mp h), neg_neg]
    · rw [abs_neg, abs_of_pos hg₀]
      exact ⟨hg, hg'⟩
  · refine ⟨_, g, hrun, ⟨?_, ?_⟩, ?_⟩
    · rw [if_neg h, hsu.fraction]
    · show g * 2 ^ u.exponent.toInt = q
      rw [hsu.value, abs_of_nonneg (not_lt.mp (mt hneg.mpr h))]
    · rw [abs_of_pos hg₀]
      exact ⟨hg, hg'⟩

end Moves

theorem exists_stands_ofFloat (hx : rational? x = some q) (hq : q ≠ 0) :
    ∃ f, (ofFloat x).Stands f q ∧ 1 / 2 ≤ |f| ∧ |f| < 1 := by
  obtain ⟨t, f, ht, h⟩ := ofFloatVia_eq (mulExact_times (M := Id)) hx hq
  have hrun : ofFloat x = t := congrArg Id.run ht
  exact ⟨f, by rwa [hrun]⟩

theorem ofFloat_of_isSpecial (hx : IsSpecial x) : ofFloat x = ⟨x, 0⟩ :=
  congrArg Id.run (if_pos (guard_eq_true hx) : ofFloatVia times x = pure ⟨x, 0⟩)

theorem Stands.ne_zero (h : s.Stands f q) (hq : q ≠ 0) : f ≠ 0 := fun hf =>
  hq (by rw [← h.value, hf, zero_mul])

/-- The fraction has the sign of the number. -/
theorem Stands.isNegative_eq (h : s.Stands f q) (hx : rational? x = some q) (hq : q ≠ 0) :
    isNegative s.fraction = isNegative x := by
  have hsign : f < 0 ↔ q < 0 := by rw [← h.value, mul_zpow_neg_iff]
  rw [isNegative_of_ne_zero h.fraction (h.ne_zero hq), isNegative_of_ne_zero hx hq]
  simp only [hsign]

end Split
end FloatWord
