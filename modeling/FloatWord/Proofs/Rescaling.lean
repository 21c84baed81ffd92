import FloatWord.Proofs.Scaling
import FloatWord.Proofs.Splitting

/-!
# Proofs — Rescaling — splitting and scaling undo each other

Scaling is rounding a number once, so it does not matter which double and which power of two make
up the number.  The fraction of a split and its exponent make up the double; so to scale the
fraction by more than the exponent is to scale the double (`scale_ofFloat`), also where the result
is rounded, overflows or vanishes.

The other way round, a number has one fraction in `[0.5, 1)` only (`fraction_unique`).  So every
multiplication that is exact where it can be finds the same split (`ofFloatVia_eq_ofFloat`); and if
a fraction and an exponent make up a double, then splitting the double finds them again
(`ofFloat_scale`).
-/

namespace FloatWord

variable {x f : Float} {p q : ℚ} {n e : Int32}

/-! ### Scaling the fraction -/

/-- Scaling the fraction of a split further than its exponent is scaling the double. -/
theorem scale_ofFloat (x : Float)
    (h : -2 ^ 31 ≤ (Split.ofFloat x).exponent.toInt + n.toInt)
    (h' : (Split.ofFloat x).exponent.toInt + n.toInt < 2 ^ 31) :
    scale (Split.ofFloat x).fraction ((Split.ofFloat x).exponent + n) = scale x n := by
  rcases isSpecial_or_ne_zero x with hx | ⟨q, hx, hq⟩
  · rw [Split.ofFloat_of_isSpecial hx, scale_of_isSpecial hx, scale_of_isSpecial hx]
  · obtain ⟨g, hst, -, -⟩ := Split.exists_stands_ofFloat hx hq
    -- both sides are the double nearest to one number
    have hround := isNearest_scale hst.fraction (hst.ne_zero hq) ((Split.ofFloat x).exponent + n)
    rw [toInt_add_of_bounds h h', ← mul_zpow_mul_zpow, hst.value, hst.isNegative_eq hx hq] at hround
    exact hround.unique (isNearest_scale hx hq n)

theorem scale_zero (x : Float) : scale x 0 = x := by
  rcases isSpecial_or_ne_zero x with hx | ⟨q, hx, hq⟩
  · exact scale_of_isSpecial hx 0
  · have hround := isNearest_scale hx hq 0
    rw [Int32.toInt_zero, zpow_zero, mul_one] at hround
    exact hround.unique (isNearest_of_rational? hx)

/-- Put together again, a split gives the double. -/
theorem scale_ofFloat_exponent (x : Float) :
    scale (Split.ofFloat x).fraction (Split.ofFloat x).exponent = x := by
  have hlo := (Split.ofFloat x).exponent.le_toInt
  have hhi := (Split.ofFloat x).exponent.toInt_lt
  have hscale := scale_ofFloat (n := 0) x (by rwa [Int32.toInt_zero, add_zero])
    (by rwa [Int32.toInt_zero, add_zero])
  rwa [Int32.add_zero, scale_zero] at hscale

/-! ### Splitting what was scaled -/

/-- A fraction from a half up has the least exponent that its value allows. -/
theorem exponent_le_of_mul_zpow_eq {i j : ℤ} (hp : 1 / 2 ≤ |p|) (hq : |q| < 1)
    (h : q * 2 ^ i = p * 2 ^ j) : j ≤ i := by
  have hlt : (2 : ℚ) ^ (j - 1) < 2 ^ i := by
    refine (zpow_le_abs_mul_zpow hp j).trans_lt ?_
    rw [← h]
    exact abs_mul_zpow_lt hq i
  exact Int.le_of_sub_one_lt ((zpow_lt_zpow_iff_right₀ one_lt_two).mp hlt)

/-- A number is a fraction in `[0.5, 1)` times a power of two in one way only. -/
theorem fraction_unique {i j : ℤ} (hp : 1 / 2 ≤ |p|) (hp' : |p| < 1) (hq : 1 / 2 ≤ |q|)
    (hq' : |q| < 1) (h : q * 2 ^ i = p * 2 ^ j) : q = p ∧ i = j := by
  have hij : i = j := le_antisymm (exponent_le_of_mul_zpow_eq hq hp' h.symm)
    (exponent_le_of_mul_zpow_eq hp hq' h)
  rw [hij] at h
  exact ⟨mul_right_cancel₀ (by positivity) h, hij⟩

/-- A multiplication that is exact where it can be splits every double like the machine's. -/
theorem ofFloatVia_eq_ofFloat {M : Type → Type} [Monad M] [LawfulMonad M] [IntegerSteps M]
    {mul : Float → Float → M Float} (hm : MulExact mul) (x : Float) :
    Split.ofFloatVia mul x = pure (Split.ofFloat x) := by
  rcases isSpecial_or_ne_zero x with hx | ⟨q, hx, hq⟩
  · rw [Split.ofFloat_of_isSpecial hx, Split.ofFloatVia, if_pos (Split.guard_eq_true hx)]
  · obtain ⟨t, f, ht, hst, hf, hf'⟩ := Split.ofFloatVia_eq hm hx hq
    obtain ⟨g, hsu, hg, hg'⟩ := Split.exists_stands_ofFloat hx hq
    obtain ⟨rfl, he⟩ := fraction_unique hf hf' hg hg' (hsu.value.trans hst.value.symm)
    have hsame : t = Split.ofFloat x := congrArg₂ Split.mk
      (eq_of_rational?_of_ne_zero hst.fraction hsu.fraction (hst.ne_zero hq))
      (Int32.toInt_inj.mp he.symm)
    rw [ht, hsame]

/-- A scaling that ends at a double rounds nothing. -/
theorem rational?_scale (hx : rational? x = some q) (h : Representable (q * 2 ^ n.toInt)) :
    rational? (scale x n) = some (q * 2 ^ n.toInt) :=
  (isNearest_scale_of_rational? hx n).rational?_eq h

/-- Splitting finds the fraction and the exponent that were put together. -/
theorem ofFloat_scale (hf : rational? f = some p) (hp : 1 / 2 ≤ |p|) (hp' : |p| < 1)
    (h : Representable (p * 2 ^ e.toInt)) : Split.ofFloat (scale f e) = ⟨f, e⟩ := by
  have hp₀ : p ≠ 0 := abs_pos.mp (lt_of_lt_of_le (by norm_num) hp)
  have hscale := rational?_scale hf h
  have hvalue : p * 2 ^ e.toInt ≠ 0 := mul_ne_zero hp₀ (by positivity)
  obtain ⟨g, hst, hg, hg'⟩ := Split.exists_stands_ofFloat hscale hvalue
  obtain ⟨rfl, he⟩ := fraction_unique hp hp' hg hg' hst.value
  exact congrArg₂ Split.mk (eq_of_rational?_of_ne_zero hst.fraction hf hp₀) (Int32.toInt_inj.mp he)

/-- **Splitting and scaling are inverse**, and fit together with further scaling.  For every double
and every exponent, scaling the fraction of its split by both exponents is scaling the double; with
no further exponent this is the double again.  And a fraction and an exponent that make up a double
are its split. -/
theorem split_scale_inverse :
    (∀ (x : Float) (n : Int32),
      -2 ^ 31 ≤ (Split.ofFloat x).exponent.toInt + n.toInt →
      (Split.ofFloat x).exponent.toInt + n.toInt < 2 ^ 31 →
      scale (Split.ofFloat x).fraction ((Split.ofFloat x).exponent + n) = scale x n) ∧
    (∀ x, scale (Split.ofFloat x).fraction (Split.ofFloat x).exponent = x) ∧
    ∀ (f : Float) (p : ℚ) (e : Int32), rational? f = some p → 1 / 2 ≤ |p| → |p| < 1 →
      Representable (p * 2 ^ e.toInt) → Split.ofFloat (scale f e) = ⟨f, e⟩ := by
  refine ⟨fun x n h h' => ?_, fun x => ?_, fun f p e hf hp hp' h => ?_⟩
  · exact scale_ofFloat x h h'
  · exact scale_ofFloat_exponent x
  · exact ofFloat_scale hf hp hp' h

/-- The smallest double, and the lowest exponent there is. -/
theorem split_scale_inverse_smallest :
    Split.ofFloat (scale 0.5 (-1073)) = ⟨0.5, -1073⟩ ∧
      scale 0.5 (-2147483648) = scale (scale 0.5 (-1073)) (-2147482575) := by
  obtain ⟨hscale, -, hsplit⟩ := split_scale_inverse
  have hhalf : |(2 : ℚ) ^ (-1 : ℤ)| = 1 / 2 := by norm_num
  have hrep : Representable ((2 : ℚ) ^ (-1 : ℤ) * 2 ^ (-1073 : Int32).toInt) := by
    rw [← zpow_add₀ two_ne_zero]
    exact representable_zpow (by decide) (by decide)
  have heq := hsplit 0.5 _ (-1073) rational?_half hhalf.ge (by rw [hhalf]; norm_num) hrep
  have hrun := hscale (scale 0.5 (-1073)) (-2147482575)
  rw [heq] at hrun
  exact ⟨heq, hrun (by decide) (by decide)⟩

end FloatWord
