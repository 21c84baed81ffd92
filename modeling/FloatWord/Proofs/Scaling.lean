import FloatWord.Scale
import FloatWord.Proofs.Powers

/-!
# Proofs — Scaling — `scale` rounds once

`scale` multiplies up to three times, and each product may round.  Going up, a product is either
exact or an infinity, and an infinity is what it would have been anyway (`Risen`).  Going down, a
product is either exact or so small that the rest of the way leads to zero (`Sunk`), since a
fixed factor is only taken when at least 54 binades remain for the last one.  The clamp moves
exponents at which the result is an infinity or a zero already.  So the last product is the only
one whose rounding counts (`scale_correctly_rounded`).
-/

namespace FloatWord

variable {M : Type → Type} [Monad M] [IntegerSteps M]
variable {x y c : Float} {q : ℚ} {s : Bool} {n : Int32}

/-! ### The plan -/

theorem rational?_two1023 : rational? two1023 = some (2 ^ (1023 : ℤ)) :=
  rational?_twoPow (k := 1023) (by decide)

theorem rational?_twoNeg969 : rational? twoNeg969 = some (2 ^ (-969 : ℤ)) :=
  rational?_twoPowNeg (k := 969) (by decide)

theorem toInt_sub_1023 (h : 1023 < n) : (n - 1023).toInt = n.toInt - 1023 := by
  have h1023 : (1023 : Int32).toInt = 1023 := rfl
  have hlt := Int32.lt_iff_toInt_lt.mp h
  have hhi := n.toInt_lt
  rw [toInt_sub_of_bounds (by omega) (by omega), h1023]

theorem toInt_add_969 (h : n < -1022) : (n + 969).toInt = n.toInt + 969 := by
  have h969 : (969 : Int32).toInt = 969 := rfl
  have h1022 : (-1022 : Int32).toInt = -1022 := rfl
  have hlt := Int32.lt_iff_toInt_lt.mp h
  have hlo := n.le_toInt
  rw [toInt_add_of_bounds (by omega) (by omega), h969]

/-- Laying out a scaling takes no integer step out of range. -/
theorem ofExponentVia_eq [LawfulMonad M] (n : Int32) :
    Staging.ofExponentVia n = (pure (Staging.ofExponent n) : M Staging) := by
  have hsub : ∀ {m : Int32}, 1023 < m → IntegerSteps.sub m 1023 = (pure (m - 1023) : M Int32) :=
    fun h => IntegerSteps.sub_eq (toInt_sub_1023 h)
  have hadd : ∀ {m : Int32}, m < -1022 → IntegerSteps.add m 969 = (pure (m + 969) : M Int32) :=
    fun h => IntegerSteps.add_eq (toInt_add_969 h)
  rw [Staging.ofExponent_eq, Staging.ofExponentVia]
  split_ifs with hup hup' hdown hdown'
  · rw [hsub hup, pure_bind, if_pos hup', hsub hup', pure_bind]
  · rw [hsub hup, pure_bind, if_neg hup']
  · rw [hadd hdown, pure_bind, if_pos hdown', hadd hdown', pure_bind]
  · rw [hadd hdown, pure_bind, if_neg hdown']
  · rfl

/-- So a scaling multiplies by the factors of its plan, whatever the integers do out of range. -/
theorem scaleVia_eq_plan [LawfulMonad M] (mul : Float → Float → M Float) (x : Float) (n : Int32) :
    scaleVia mul x n = (do
      let y ← (Staging.ofExponent n).factors.foldlM mul x
      let last ← exp2Via mul (Staging.ofExponent n).rest
      mul y last) := by
  rw [scaleVia, ofExponentVia_eq, pure_bind]

theorem scaleVia_times [LawfulMonad M] (x : Float) (n : Int32) :
    scaleVia times x n = (pure (scale x n) : M Float) := by
  rw [scaleVia_eq_plan, foldlM_times, pure_bind, exp2Via_times, pure_bind, scale_eq]
  rfl

/-- The five shapes of a plan, and how much of the exponent each leaves for the last product. -/
theorem ofExponent_cases (n : Int32) :
    (-1022 ≤ n.toInt ∧ n.toInt ≤ 1023 ∧ Staging.ofExponent n = ⟨[], n⟩) ∨
    (1023 < n.toInt ∧ n.toInt ≤ 2046 ∧
      ∃ r, Staging.ofExponent n = ⟨[two1023], r⟩ ∧ r.toInt = n.toInt - 1023) ∨
    (2046 < n.toInt ∧
      ∃ r, Staging.ofExponent n = ⟨[two1023, two1023], r⟩ ∧
        r.toInt = min (n.toInt - 2046) 1023) ∨
    (n.toInt < -1022 ∧ -1991 ≤ n.toInt ∧
      ∃ r, Staging.ofExponent n = ⟨[twoNeg969], r⟩ ∧ r.toInt = n.toInt + 969) ∨
    (n.toInt < -1991 ∧
      ∃ r, Staging.ofExponent n = ⟨[twoNeg969, twoNeg969], r⟩ ∧
        r.toInt = max (n.toInt + 1938) (-1022)) := by
  have h1023 : (1023 : Int32).toInt = 1023 := rfl
  have h1022 : (-1022 : Int32).toInt = -1022 := rfl
  have hup : ∀ {m : Int32}, 1023 < m ↔ 1023 < m.toInt := Int32.lt_iff_toInt_lt
  have hdown : ∀ {m : Int32}, m < -1022 ↔ m.toInt < -1022 := Int32.lt_iff_toInt_lt
  rw [Staging.ofExponent_eq]
  split_ifs with h₁ h₂ h₃ h₄
  · have hsub := toInt_sub_1023 h₁
    have hsub' := toInt_sub_1023 h₂
    rw [hup] at h₁ h₂
    exact .inr (.inr (.inl ⟨by omega, _, rfl, by rw [toInt_min, hsub', hsub, h1023]; omega⟩))
  · have hsub := toInt_sub_1023 h₁
    rw [hup] at h₁ h₂
    exact .inr (.inl ⟨by omega, by omega, _, rfl, hsub⟩)
  · have hadd := toInt_add_969 h₃
    have hadd' := toInt_add_969 h₄
    rw [hdown] at h₃ h₄
    exact .inr (.inr (.inr (.inr ⟨by omega, _, rfl, by rw [toInt_max, hadd', hadd, h1022]; omega⟩)))
  · have hadd := toInt_add_969 h₃
    rw [hdown] at h₃ h₄
    exact .inr (.inr (.inr (.inl ⟨by omega, by omega, _, rfl, hadd⟩)))
  · rw [hup] at h₁
    rw [hdown] at h₃
    exact .inl ⟨by omega, by omega, rfl⟩

/-! ### Going up -/

theorem overflowThreshold_le : overflowThreshold ≤ 2 ^ 1024 :=
  sub_le_self _ (by positivity)

/-- A factor that is a power of two leaves the sign as it is. -/
theorem isNearest_mul_zpow {j : ℤ} (hy : rational? y = some q) (hc : rational? c = some (2 ^ j)) :
    IsNearest (isNegative y) (q * 2 ^ j) (y * c) := by
  have h := isNearest_mul hy hc
  rwa [isNegative_of_pos hc (by positivity), Bool.bne_false] at h

/-- A double on the way up: the number, or an infinity in place of one out of range. -/
def Risen (s : Bool) (q : ℚ) (y : Float) : Prop :=
  isNegative y = s ∧ (rational? y = some q ∨ 2 ^ 1024 ≤ |q| ∧ y.isInf = true)

theorem risen (hx : rational? x = some q) : Risen (isNegative x) q x := ⟨rfl, .inl hx⟩

theorem Risen.step {j : ℤ} (h : Risen s q y) (hj : 0 ≤ j) (hc : rational? c = some (2 ^ j)) :
    Risen s (q * 2 ^ j) (y * c) := by
  obtain ⟨rfl, hy | ⟨hq, hinf⟩⟩ := h
  · have hround := isNearest_mul_zpow hy hc
    refine ⟨hround.1, ?_⟩
    rcases lt_or_ge |q * 2 ^ j| (2 ^ 1024) with hlt | hge
    · exact .inl (rational?_mul hy hc (Representable.mul_zpow ⟨y, hy⟩ (.inl hj) hlt))
    · exact .inr ⟨hge, hround.isInf_iff.mpr (overflowThreshold_le.trans hge)⟩
  · rw [isInf_mul hinf hc (by positivity)]
    exact ⟨rfl, .inr ⟨hq.trans (le_abs_mul_zpow hj), hinf⟩⟩

theorem Risen.isNearest (h : Risen s q y) : IsNearest s q y := by
  obtain ⟨rfl, hy | ⟨hq, hinf⟩⟩ := h
  · exact isNearest_of_rational? hy
  · refine ⟨rfl, ?_⟩
    rwa [if_pos (overflowThreshold_le.trans hq)]

/-! ### Going down -/

/-- A double on the way down: the number, or both of them at most the smallest normal number. -/
def Sunk (s : Bool) (q : ℚ) (y : Float) : Prop :=
  isNegative y = s ∧ (rational? y = some q ∨
    |q| ≤ 2 ^ (-1022 : ℤ) ∧ ∃ v, rational? y = some v ∧ |v| ≤ 2 ^ (-1022 : ℤ))

theorem sunk (hx : rational? x = some q) : Sunk (isNegative x) q x := ⟨rfl, .inl hx⟩

theorem Sunk.step {j : ℤ} (h : Sunk s q y) (hj : j ≤ 0) (hc : rational? c = some (2 ^ j)) :
    Sunk s (q * 2 ^ j) (y * c) := by
  have hmin := rational?_twoPowNeg (k := 1022) (by decide)
  obtain ⟨rfl, hy | ⟨hq, v, hv, hsmall⟩⟩ := h
  · have hround := isNearest_mul_zpow hy hc
    refine ⟨hround.1, ?_⟩
    rcases le_or_gt (2 ^ (-1022 : ℤ)) |q * 2 ^ j| with hge | hlt
    · exact .inl (rational?_mul hy hc (Representable.mul_zpow_of_le ⟨y, hy⟩ hj hge))
    · exact .inr ⟨hlt.le, hround.exists_abs_le hmin hlt.le⟩
  · have hround := isNearest_mul_zpow hv hc
    exact ⟨hround.1, .inr ⟨(abs_mul_zpow_le hj).trans hq,
      hround.exists_abs_le hmin ((abs_mul_zpow_le hj).trans hsmall)⟩⟩

theorem abs_mul_zpow_le_underflowThreshold {j : ℤ} (hj : j ≤ -54) (hq : |q| ≤ 2 ^ (-1022 : ℤ)) :
    |q * 2 ^ j| ≤ underflowThreshold := by
  rw [abs_mul_zpow, underflowThreshold]
  calc |q| * 2 ^ j ≤ 2 ^ (-1022 : ℤ) * 2 ^ (-54 : ℤ) := by
        gcongr
        exact one_le_two
    _ = 2 ^ (-1076 : ℤ) := by rw [← zpow_add₀ two_ne_zero]; rfl
    _ ≤ 2 ^ (-1075 : ℤ) := zpow_le_zpow_right₀ one_le_two (by decide)

/-- With 54 binades to go, what was rounded on the way is rounded to zero. -/
theorem Sunk.isNearest_mul {j : ℤ} (h : Sunk s q y) (hj : j ≤ -54)
    (hc : rational? c = some (2 ^ j)) : IsNearest s (q * 2 ^ j) (y * c) := by
  obtain ⟨rfl, hy | ⟨hq, v, hv, hsmall⟩⟩ := h
  · exact isNearest_mul_zpow hy hc
  · have hround := isNearest_mul_zpow hv hc
    have hzero := hround.rational?_eq_zero_iff.mpr (abs_mul_zpow_le_underflowThreshold hj hsmall)
    rw [← hround.1]
    exact isNearest_of_underflow hzero (abs_mul_zpow_le_underflowThreshold hj hq)

/-! ### The whole way -/

theorem rational?_exp2 (hn : -1022 ≤ n.toInt) (hn' : n.toInt ≤ 1023) :
    rational? (exp2 n) = some (2 ^ n.toInt) := by
  obtain ⟨y, hy, hv⟩ := exp2Via_eq (mulExact_times (M := Id)) hn hn'
  have hrun : exp2 n = y := congrArg Id.run hy
  rw [hrun, hv]

/-- What every power of two leaves as it is, `scale` leaves as it is. -/
theorem scale_eq_self (h : ∀ c j, rational? c = some (2 ^ (j : ℤ)) → x * c = x) (n : Int32) :
    scale x n = x := by
  have hup := h _ _ rational?_two1023
  have hdown := h _ _ rational?_twoNeg969
  have hlast : ∀ r : Int32, -1022 ≤ r.toInt → r.toInt ≤ 1023 → x * exp2 r = x :=
    fun r hr hr' => h _ _ (rational?_exp2 hr hr')
  rw [scale_eq]
  rcases ofExponent_cases n with ⟨hn, hn', e⟩ | ⟨hn, hn', r, e, hr⟩ | ⟨hn, r, e, hr⟩ |
      ⟨hn, hn', r, e, hr⟩ | ⟨hn, r, e, hr⟩ <;>
    rw [e]
  · exact hlast n hn hn'
  · show x * two1023 * exp2 r = x
    rw [hup, hlast r (by omega) (by omega)]
  · show x * two1023 * two1023 * exp2 r = x
    rw [hup, hup, hlast r (by omega) (by omega)]
  · show x * twoNeg969 * exp2 r = x
    rw [hdown, hlast r (by omega) (by omega)]
  · show x * twoNeg969 * twoNeg969 * exp2 r = x
    rw [hdown, hdown, hlast r (by omega) (by omega)]

theorem scale_of_isSpecial (hx : IsSpecial x) (n : Int32) : scale x n = x := by
  rcases hx with hx | hx | hx
  · rw [eq_notANumber hx]
    exact scale_eq_self (fun c _ _ => notANumber_mul c) n
  · exact scale_eq_self (fun c j hc => isInf_mul hx hc (by positivity)) n
  · exact scale_eq_self (fun c j hc => mul_of_rational?_zero hx hc (by positivity)) n

theorem isNearest_scale (hx : rational? x = some q) (hq : q ≠ 0) (n : Int32) :
    IsNearest (isNegative x) (q * 2 ^ n.toInt) (scale x n) := by
  have hrep : Representable q := ⟨x, hx⟩
  rw [scale_eq]
  rcases ofExponent_cases n with ⟨hn, hn', e⟩ | ⟨hn, hn', r, e, hr⟩ | ⟨hn, r, e, hr⟩ |
      ⟨hn, hn', r, e, hr⟩ | ⟨hn, r, e, hr⟩ <;>
    rw [e]
  · exact isNearest_mul_zpow hx (rational?_exp2 hn hn')
  · have hrise := ((risen hx).step (by decide) rational?_two1023).step (by omega)
      (rational?_exp2 (n := r) (by omega) (by omega))
    rw [mul_zpow_mul_zpow, show 1023 + r.toInt = n.toInt by omega] at hrise
    exact hrise.isNearest
  · have hrise := (((risen hx).step (by decide) rational?_two1023).step (by decide)
      rational?_two1023).step (by omega) (rational?_exp2 (n := r) (by omega) (by omega))
    rw [mul_zpow_mul_zpow, mul_zpow_mul_zpow] at hrise
    rcases le_or_gt n.toInt 3069 with hclamp | hclamp
    · rw [show 1023 + (1023 + r.toInt) = n.toInt by omega] at hrise
      exact hrise.isNearest
    · -- clamped, and out of range with the clamp and without
      exact hrise.isNearest.of_overflow
        (overflowThreshold_le.trans (hrep.two_pow_1024_le hq (by omega)))
        (overflowThreshold_le.trans (hrep.two_pow_1024_le hq (by omega)))
  · have hround := ((sunk hx).step (by decide) rational?_twoNeg969).isNearest_mul (by omega)
      (rational?_exp2 (n := r) (by omega) (by omega))
    rwa [mul_zpow_mul_zpow, show -969 + r.toInt = n.toInt by omega] at hround
  · have hround := (((sunk hx).step (by decide) rational?_twoNeg969).step (by decide)
      rational?_twoNeg969).isNearest_mul (by omega) (rational?_exp2 (n := r) (by omega) (by omega))
    rw [mul_zpow_mul_zpow, mul_zpow_mul_zpow] at hround
    rcases le_or_gt (-2960) n.toInt with hclamp | hclamp
    · rwa [show -969 + (-969 + r.toInt) = n.toInt by omega] at hround
    · -- clamped, and rounded to zero with the clamp and without
      have hzero := hround.rational?_eq_zero_iff.mpr (hrep.abs_le_underflowThreshold (by omega))
      rw [← hround.1]
      exact isNearest_of_underflow hzero (hrep.abs_le_underflowThreshold (by omega))

/-- A zero is nearest to itself, and so this holds of every finite double. -/
theorem isNearest_scale_of_rational? (hx : rational? x = some q) (n : Int32) :
    IsNearest (isNegative x) (q * 2 ^ n.toInt) (scale x n) := by
  by_cases hq : q = 0
  · rw [hq] at hx
    rw [scale_of_isSpecial (.inr (.inr hx)), hq, zero_mul]
    exact isNearest_of_rational? hx
  · exact isNearest_scale hx hq n

/-- **Scaling rounds once.**  NaN, the infinities and the zeros stay what they are.  Every other
double is taken to the one double nearest to the exact number, with its sign: a zero up to half
the smallest double, and an infinity from halfway between the largest double and `2 ^ 1024`. -/
theorem scale_correctly_rounded (x : Float) (n : Int32) :
    (x.isNaN = true → (scale x n).isNaN = true) ∧
    (x.isInf = true ∨ rational? x = some 0 → scale x n = x) ∧
    ∀ q, rational? x = some q → q ≠ 0 →
      (∀ y, IsNearest (isNegative x) (q * 2 ^ n.toInt) y ↔ y = scale x n) ∧
      isNegative (scale x n) = isNegative x ∧
      (rational? (scale x n) = some 0 ↔ |q| * 2 ^ n.toInt ≤ 2 ^ (-1075 : ℤ)) ∧
      ((scale x n).isInf = true ↔ 2 ^ 1024 - 2 ^ 970 ≤ |q| * 2 ^ n.toInt) := by
  refine ⟨fun hx => ?_, fun hx => ?_, fun q hx hq => ?_⟩
  · rw [eq_notANumber hx, scale_eq_self fun c _ _ => notANumber_mul c]
    decide
  · rcases hx with hx | hx
    · exact scale_eq_self (fun c j hc => isInf_mul hx hc (by positivity)) n
    · exact scale_eq_self (fun c j hc => mul_of_rational?_zero hx hc (by positivity)) n
  · have hround := isNearest_scale hx hq n
    refine ⟨fun y => ⟨fun hy => hy.unique hround, fun hy => hy ▸ hround⟩, hround.1, ?_, ?_⟩
    · rw [← abs_mul_zpow]
      exact hround.rational?_eq_zero_iff
    · rw [← abs_mul_zpow]
      exact hround.isInf_iff

theorem scale_smallest_tie :
    (scale notANumber 5).isNaN = true ∧ scale (-infinity) (-3000) = -infinity ∧
      rational? (scale 1 (-1075)) = some 0 := by
  have hone : (1 : ℚ) ≠ 0 := one_ne_zero
  refine ⟨(scale_correctly_rounded notANumber 5).1 (by decide),
    (scale_correctly_rounded (-infinity) (-3000)).2.1 (.inl (by decide)), ?_⟩
  obtain ⟨-, -, hzero, -⟩ := (scale_correctly_rounded 1 (-1075)).2.2 1 rational?_one hone
  rw [hzero, abs_one, one_mul]
  rfl

/-! ### Without rounding -/

section Exact
variable [LawfulMonad M] {mul : Float → Float → M Float}

/-- A scaling whose result is a double rounds on no product: from 1 up, a number stays normal under
the fixed factor. -/
theorem scaleVia_eq (h : MulExact mul) (hx : rational? x = some q) (hq : 1 ≤ q)
    (hn : -1991 ≤ n.toInt) (hn' : n.toInt ≤ 1023) (hrep : Representable (q * 2 ^ n.toInt)) :
    ∃ y, scaleVia mul x n = pure y ∧ rational? y = some (q * 2 ^ n.toInt) := by
  have hpos : 0 < q := one_pos.trans_le hq
  rcases ofExponent_cases n with ⟨hlo, hhi, e⟩ | ⟨hlo, -⟩ | ⟨hlo, -⟩ | ⟨hlo, -, r, e, hr⟩ |
      ⟨hlo, -⟩
  · obtain ⟨c, hc, hcv⟩ := exp2Via_eq h hlo hhi
    obtain ⟨y, hy, hv⟩ := h.exists_eq hx hcv hpos (by positivity) hrep
    refine ⟨y, ?_, hv⟩
    simp only [scaleVia_eq_plan, e, List.foldlM_nil, pure_bind, hc, hy]
  · omega
  · omega
  · have hnormal : (2 : ℚ) ^ (-1022 : ℤ) ≤ |q * 2 ^ (-969 : ℤ)| := by
      rw [abs_mul_zpow, abs_of_pos hpos]
      calc (2 : ℚ) ^ (-1022 : ℤ) ≤ 2 ^ (-969 : ℤ) := zpow_le_zpow_right₀ one_le_two (by decide)
        _ ≤ q * 2 ^ (-969 : ℤ) := le_mul_of_one_le_left (by positivity) hq
    obtain ⟨z, hz, hzv⟩ := h.exists_eq hx rational?_twoNeg969 hpos (by positivity)
      (Representable.mul_zpow_of_le ⟨x, hx⟩ (by decide) hnormal)
    obtain ⟨c, hc, hcv⟩ := exp2Via_eq h (n := r) (by omega) (by omega)
    have hexp : q * 2 ^ (-969 : ℤ) * 2 ^ r.toInt = q * 2 ^ n.toInt := by
      rw [mul_zpow_mul_zpow, show -969 + r.toInt = n.toInt by omega]
    obtain ⟨y, hy, hv⟩ := h.exists_eq hzv hcv (by positivity) (by positivity) (by rwa [hexp])
    refine ⟨y, ?_, by rw [hv, hexp]⟩
    simp only [scaleVia_eq_plan, e, List.foldlM_cons, List.foldlM_nil, bind_pure, hz, pure_bind, hc,
      hy]
  · omega

end Exact

end FloatWord
