import FloatWord.Proofs.Ordering

/-!
# Proofs — Monotone — scaling keeps the order

A double that is nearest to a number is not further from it than any other double.  So if two
numbers were rounded to doubles in the opposite order, both would lie in the middle between these,
and one number is rounded to one double.  A number out of range is rounded to the infinity on its
side, and the infinities are the ends of the order (`neg_infinity_le`, `le_infinity`), so that a
map keeps the order of the doubles if it does so for numbers and at the two ends (`related_of_le`).
Together: rounding keeps the order (`IsNearest.le_of_le`).

A scaling is one rounding, whatever its stages, of a number that grows with the double, and that
grows or falls with the exponent by its sign (`scale_monotone`).
-/

namespace FloatWord

variable {x y : Float} {p q : ℚ} {s t : Bool} {n m : Int32}

/-! ### The ends of the order -/

theorem le_self (hx : x.isNaN = false) : x ≤ x :=
  (le_iff_orderKey hx hx).mpr le_rfl

theorem abs_orderKey_le (hx : x.isNaN = false) : |orderKey x.toBits| ≤ infinityPlace := by
  obtain ⟨s, d, h, rfl⟩ := exists_eq_ofDigits hx
  rw [orderKey_toBits h, abs_signedPlace]
  exact_mod_cast h

theorem abs_orderKey_lt (hx : rational? x = some p) : |orderKey x.toBits| < infinityPlace := by
  obtain ⟨s, d, h, rfl, -⟩ := exists_ofDigits_of_rational? hx
  rw [orderKey_toBits h.le, abs_signedPlace]
  exact_mod_cast h

theorem orderKey_infinity : orderKey infinity.toBits = infinityPlace := by decide

theorem orderKey_neg_infinity : orderKey (-infinity).toBits = -infinityPlace := by decide

theorem le_infinity (hx : x.isNaN = false) : x ≤ infinity := by
  rw [le_iff_orderKey hx (by decide), orderKey_infinity]
  exact (abs_le.mp (abs_orderKey_le hx)).2

theorem neg_infinity_le (hx : x.isNaN = false) : -infinity ≤ x := by
  rw [le_iff_orderKey (by decide) hx, orderKey_neg_infinity]
  exact (abs_le.mp (abs_orderKey_le hx)).1

theorem not_infinity_le (hx : rational? x = some p) : ¬ infinity ≤ x := by
  rw [le_iff_orderKey (by decide) (isNaN_of_rational? hx), orderKey_infinity, not_le]
  exact (abs_lt.mp (abs_orderKey_lt hx)).2

theorem not_le_neg_infinity (hx : rational? x = some p) : ¬ x ≤ -infinity := by
  rw [le_iff_orderKey (isNaN_of_rational? hx) (by decide), orderKey_neg_infinity, not_le]
  exact (abs_lt.mp (abs_orderKey_lt hx)).1

/-- What relates numbers in their order, and everything to the infinities at the two ends, relates
doubles in theirs. -/
theorem related_of_le {α : Type} {r : α → α → Prop} {f : Float → α}
    (htop : ∀ z : Float, z.isNaN = false → r (f z) (f infinity))
    (hbottom : ∀ z : Float, z.isNaN = false → r (f (-infinity)) (f z))
    (hnumber : ∀ z w p q, rational? z = some p → rational? w = some q → p ≤ q → r (f z) (f w))
    (h : x ≤ y) : r (f x) (f y) := by
  obtain ⟨hx, hy⟩ := isNaN_of_le h
  rcases double_cases y with rfl | rfl | rfl | ⟨q, hq⟩
  · exact absurd hy (by decide)
  · exact htop x hx
  · -- nothing but itself is below the bottom
    rcases double_cases x with rfl | rfl | rfl | ⟨p, hp⟩
    · exact absurd hx (by decide)
    · exact absurd h (by decide)
    · exact hbottom _ hx
    · exact absurd h (not_le_neg_infinity hp)
  · rcases double_cases x with rfl | rfl | rfl | ⟨p, hp⟩
    · exact absurd hx (by decide)
    · exact absurd h (not_infinity_le hq)
    · exact hbottom y hy
    · exact hnumber x y p q hp hq ((le_iff hp hq).mp h)

/-! ### Rounding keeps the order -/

/-- A number that is not closer to the lower of two is not below their middle, -/
theorem add_le_two_mul {v w : ℚ} (hwv : w < v) (h : |p - v| ≤ |p - w|) : v + w ≤ 2 * p := by
  by_contra hlow
  have hv : |p - v| = v - p := by rw [abs_sub_comm, abs_of_pos (by linarith)]
  have hw : |p - w| < v - p := abs_lt.mpr ⟨by linarith, by linarith⟩
  linarith

/-- and one that is not closer to the higher is not above it. -/
theorem two_mul_le_add {v w : ℚ} (hwv : w < v) (h : |q - w| ≤ |q - v|) : 2 * q ≤ v + w := by
  by_contra hhigh
  have hw : |q - w| = q - w := abs_of_pos (by linarith)
  have hv : |q - v| < q - w := abs_lt.mpr ⟨by linarith, by linarith⟩
  linarith

/-- A number is rounded to doubles of one value, whatever sign a zero is given. -/
theorem IsNearest.le_of_eq (hx : IsNearest s q x) (hy : IsNearest t q y) (hs : signed s |q| = q)
    (ht : signed t |q| = q) : x ≤ y := by
  by_cases hq : q = 0
  · have hzero : |q| ≤ underflowThreshold := by
      rw [hq, abs_zero]
      exact underflowThreshold_pos.le
    exact (le_iff (hx.rational?_eq_zero_iff.mpr hzero) (hy.rational?_eq_zero_iff.mpr hzero)).mpr
      le_rfl
  · rw [eq_of_signed_abs hs hq, ← eq_of_signed_abs ht hq] at hx
    rw [hx.unique hy]
    exact le_self hy.isNaN_eq

theorem overflowThreshold_pos : 0 < overflowThreshold :=
  underflowThreshold_pos.trans underflowThreshold_lt_overflowThreshold

/-- Out of range a number is rounded to the infinity on its side. -/
theorem IsNearest.eq_infinity (h : IsNearest s q x) (hs : signed s |q| = q)
    (hq : overflowThreshold ≤ |q|) : x = if q < 0 then -infinity else infinity := by
  have hne : q ≠ 0 := abs_pos.mp (overflowThreshold_pos.trans_le hq)
  rw [eq_infinity_of_isInf (h.isInf_iff.mpr hq), h.1, eq_of_signed_abs hs hne]
  simp only [decide_eq_true_eq]

/-- **Rounding to nearest keeps the order** of numbers that are rounded under their own signs. -/
theorem IsNearest.le_of_le (hx : IsNearest s p x) (hy : IsNearest t q y) (hs : signed s |p| = p)
    (ht : signed t |q| = q) (h : p ≤ q) : x ≤ y := by
  rcases h.eq_or_lt with rfl | hlt
  · exact hx.le_of_eq hy hs ht
  rcases le_or_gt overflowThreshold q with hover | hq
  · have hpos : 0 < q := overflowThreshold_pos.trans_le hover
    rw [hy.eq_infinity ht (hover.trans (le_abs_self q)), if_neg hpos.not_gt]
    exact le_infinity hx.isNaN_eq
  rcases le_or_gt p (-overflowThreshold) with hover | hp
  · have hneg : p < 0 := hover.trans_lt (neg_lt_zero.mpr overflowThreshold_pos)
    rw [hx.eq_infinity hs ((le_neg_of_le_neg hover).trans (neg_le_abs p)), if_pos hneg]
    exact neg_infinity_le hy.isNaN_eq
  obtain ⟨-, hx⟩ := hx
  obtain ⟨-, hy⟩ := hy
  rw [if_neg (not_le.mpr (abs_lt.mpr ⟨hp, hlt.trans hq⟩))] at hx
  rw [if_neg (not_le.mpr (abs_lt.mpr ⟨hp.trans hlt, hq⟩))] at hy
  obtain ⟨v, hv, hx⟩ := hx
  obtain ⟨w, hw, hy⟩ := hy
  rw [le_iff hv hw]
  by_contra hwv
  have hlow := add_le_two_mul (not_le.mp hwv) (hx y w hw).1
  have hhigh := two_mul_le_add (not_le.mp hwv) (hy x v hv).1
  linarith

/-! ### Scalings -/

/-- Scaling keeps the sign, and so it rounds the number under its own. -/
theorem signed_isNegative_mul_zpow (hx : rational? x = some q) (j : ℤ) :
    signed (isNegative x) |q * 2 ^ j| = q * 2 ^ j := by
  have hmul := signed_mul (isNegative x) false |q| (2 ^ j)
  rw [Bool.bne_false, ← abs_mul_zpow, signed_isNegative hx] at hmul
  exact hmul

/-- Scaled doubles are in the order of the numbers that they are rounded from. -/
theorem scale_le_scale_of_rational? (hx : rational? x = some p) (hy : rational? y = some q)
    (h : p * 2 ^ n.toInt ≤ q * 2 ^ m.toInt) : scale x n ≤ scale y m :=
  (isNearest_scale_of_rational? hx n).le_of_le (isNearest_scale_of_rational? hy m)
    (signed_isNegative_mul_zpow hx _) (signed_isNegative_mul_zpow hy _) h

theorem isNaN_scale (hx : x.isNaN = false) (n : Int32) : (scale x n).isNaN = false := by
  rcases isSpecial_or_ne_zero x with hspecial | ⟨q, hnum, -⟩
  · rwa [scale_of_isSpecial hspecial]
  · exact (isNearest_scale_of_rational? hnum n).isNaN_eq

theorem scale_infinity (n : Int32) : scale infinity n = infinity :=
  scale_of_isSpecial (.inr (.inl (by decide))) n

theorem scale_neg_infinity (n : Int32) : scale (-infinity) n = -infinity :=
  scale_of_isSpecial (.inr (.inl (by decide))) n

/-- A larger double is scaled to a larger one. -/
theorem scale_le_scale (h : x ≤ y) (n : Int32) : scale x n ≤ scale y n := by
  refine related_of_le (r := (· ≤ ·)) (f := fun z => scale z n) (fun z hz => ?_) (fun z hz => ?_)
    (fun z w p q hz hw hpq => ?_) h
  · show scale z n ≤ scale infinity n
    rw [scale_infinity]
    exact le_infinity (isNaN_scale hz n)
  · show scale (-infinity) n ≤ scale z n
    rw [scale_neg_infinity]
    exact neg_infinity_le (isNaN_scale hz n)
  · exact scale_le_scale_of_rational? hz hw (mul_le_mul_of_nonneg_right hpq (by positivity))

theorem zpow_toInt_le (h : n ≤ m) : (2 : ℚ) ^ n.toInt ≤ 2 ^ m.toInt :=
  zpow_le_zpow_right₀ one_le_two (Int32.le_iff_toInt_le.mp h)

/-- From zero up a larger exponent scales further up, -/
theorem scale_le_scale_of_nonneg (hx : 0 ≤ x) (h : n ≤ m) : scale x n ≤ scale x m := by
  rcases isSpecial_or_ne_zero x with hspecial | ⟨q, hnum, -⟩
  · rw [scale_of_isSpecial hspecial, scale_of_isSpecial hspecial]
    exact le_self (isNaN_of_le hx).2
  · have hq : 0 ≤ q := (le_iff rational?_zero hnum).mp hx
    exact scale_le_scale_of_rational? hnum hnum
      (mul_le_mul_of_nonneg_left (zpow_toInt_le h) hq)

/-- and from zero down, further down. -/
theorem scale_le_scale_of_nonpos (hx : x ≤ 0) (h : n ≤ m) : scale x m ≤ scale x n := by
  rcases isSpecial_or_ne_zero x with hspecial | ⟨q, hnum, -⟩
  · rw [scale_of_isSpecial hspecial, scale_of_isSpecial hspecial]
    exact le_self (isNaN_of_le hx).1
  · have hq : q ≤ 0 := (le_iff hnum rational?_zero).mp hx
    exact scale_le_scale_of_rational? hnum hnum
      (mul_le_mul_of_nonpos_left (zpow_toInt_le h) hq)

/-- **Scaling keeps the order.**  By one exponent a larger double is scaled to one no smaller, the
infinities included.  With the exponent the result grows for a double from zero up and falls for
one from zero down, also where the exponents have different stages. -/
theorem scale_monotone :
    (∀ (x y : Float) (n : Int32), x ≤ y → scale x n ≤ scale y n) ∧
      (∀ (x : Float) (n m : Int32), 0 ≤ x → n ≤ m → scale x n ≤ scale x m) ∧
      ∀ (x : Float) (n m : Int32), x ≤ 0 → n ≤ m → scale x m ≤ scale x n :=
  ⟨fun _ _ n h => scale_le_scale h n, fun _ _ _ => scale_le_scale_of_nonneg,
    fun _ _ _ => scale_le_scale_of_nonpos⟩

/-- An infinity against a zero, and exponents on both sides of a change of stages. -/
theorem scale_monotone_edges :
    scale (-infinity) 2147483647 ≤ scale (-0) 2147483647 ∧ scale 1 (-1074) ≤ scale 2 (-1074) ∧
      scale 1 1023 ≤ scale 1 1024 ∧ scale (-1) (-1991) ≤ scale (-1) (-1992) := by
  obtain ⟨hdouble, hup, hdown⟩ := scale_monotone
  exact ⟨hdouble _ _ _ (by decide), hdouble _ _ _ (by decide),
    hup _ _ _ (by decide) (by decide), hdown _ _ _ (by decide) (by decide)⟩

end FloatWord
