import FloatWord.Proofs.Rescaling

/-!
# Proofs — Composing — one scaling after another

Two scalings in a row round twice, and one by both exponents rounds once.  They agree where the
first one has nothing to round: both then end at the double nearest to one number
(`scale_scale_of_exact`).  On the way up there is nothing to round short of an infinity, and out of
an infinity no further scaling leads (`scale_scale_of_nonneg`).  `scale_composes` puts the cases
together.
-/

namespace FloatWord

variable {x : Float} {q : ℚ} {a b n : Int32}

/-- A scaling that rounds nothing can be joined with the next one. -/
theorem scale_scale_of_exact (hx : rational? x = some q)
    (hscale : rational? (scale x a) = some (q * 2 ^ a.toInt))
    (hab : (a + b).toInt = a.toInt + b.toInt) : scale (scale x a) b = scale x (a + b) := by
  have hround := isNearest_scale_of_rational? hscale b
  rw [(isNearest_scale_of_rational? hx a).1, mul_zpow_mul_zpow, ← hab] at hround
  exact hround.unique (isNearest_scale_of_rational? hx (a + b))

/-- Two scalings upward can be joined: what is out of range after the first one is out of range
after both. -/
theorem scale_scale_of_nonneg (hx : rational? x = some q) (ha : 0 ≤ a.toInt) (hb : 0 ≤ b.toInt)
    (hab : (a + b).toInt = a.toInt + b.toInt) : scale (scale x a) b = scale x (a + b) := by
  rcases lt_or_ge |q * 2 ^ a.toInt| (2 ^ 1024) with hlt | hge
  · have hrep : Representable (q * 2 ^ a.toInt) := Representable.mul_zpow ⟨x, hx⟩ (.inl ha) hlt
    exact scale_scale_of_exact hx (rational?_scale hx hrep) hab
  · have hround := isNearest_scale_of_rational? hx a
    have hover : overflowThreshold ≤ |q * 2 ^ a.toInt| := overflowThreshold_le.trans hge
    have hover' : overflowThreshold ≤ |q * 2 ^ (a + b).toInt| := by
      rw [hab, ← mul_zpow_mul_zpow]
      exact hover.trans (le_abs_mul_zpow hb)
    rw [scale_of_isSpecial (.inr (.inl (hround.isInf_iff.mpr hover)))]
    exact (hround.of_overflow hover hover').unique (isNearest_scale_of_rational? hx (a + b))

/-- Only the lowest exponent has no negative. -/
theorem toInt_neg_of_ne (hn : n ≠ Int32.minValue) : (-n).toInt = -n.toInt := by
  have hne : n.toInt ≠ -2 ^ 31 := fun h => hn (Int32.toInt_inj.mp h)
  have hle := n.le_toInt
  have hlt := n.toInt_lt
  rw [Int32.toInt_neg, Int.bmod_eq_of_le (by omega) (by omega)]

/-- A scaling that rounds nothing can be taken back. -/
theorem scale_scale_neg (hn : n ≠ Int32.minValue) (hx : rational? x = some q)
    (hscale : rational? (scale x n) = some (q * 2 ^ n.toInt)) : scale (scale x n) (-n) = x := by
  have hsum : (n + -n).toInt = n.toInt + (-n).toInt := by
    rw [Int32.add_right_neg, toInt_neg_of_ne hn, add_neg_cancel, Int32.toInt_zero]
  rw [scale_scale_of_exact hx hscale hsum, Int32.add_right_neg, scale_zero]

/-- **Scalings compose.**  As long as the sum of the exponents is one, two scalings are one by the
sum if both go up, if the double is a zero, an infinity or NaN, or if the first one ends at the
exact number.  So a scaling that ends at the exact number is undone by the opposite one. -/
theorem scale_composes :
    (∀ (x : Float) (a b : Int32),
      -2 ^ 31 ≤ a.toInt + b.toInt → a.toInt + b.toInt < 2 ^ 31 →
      (0 ≤ a ∧ 0 ≤ b ∨ x.isNaN = true ∨ x.isInf = true ∨ rational? x = some 0 ∨
        ∃ q, rational? x = some q ∧ rational? (scale x a) = some (q * 2 ^ a.toInt)) →
      scale (scale x a) b = scale x (a + b)) ∧
    ∀ (x : Float) (n : Int32) (q : ℚ), n ≠ Int32.minValue → rational? x = some q →
      rational? (scale x n) = some (q * 2 ^ n.toInt) → scale (scale x n) (-n) = x := by
  refine ⟨fun x a b hlo hhi h => ?_, fun x n q => scale_scale_neg⟩
  have hab := toInt_add_of_bounds hlo hhi
  have hspecial : IsSpecial x → scale (scale x a) b = scale x (a + b) := fun hx => by
    rw [scale_of_isSpecial hx, scale_of_isSpecial hx, scale_of_isSpecial hx]
  rcases h with ⟨ha, hb⟩ | hnan | hinf | hzero | ⟨q, hx, hscale⟩
  · rcases isSpecial_or_ne_zero x with hx | ⟨q, hx, -⟩
    · exact hspecial hx
    · exact scale_scale_of_nonneg hx (Int32.le_iff_toInt_le.mp ha) (Int32.le_iff_toInt_le.mp hb) hab
  · exact hspecial (.inl hnan)
  · exact hspecial (.inr (.inl hinf))
  · exact hspecial (.inr (.inr hzero))
  · exact scale_scale_of_exact hx hscale hab

/-- Out of range and further up, the smallest double up and then down past it, and the smallest
double to 1 and back. -/
theorem scale_composes_edges :
    scale (scale 1 1024) 1024 = scale 1 (1024 + 1024) ∧
      scale (scale (twoPowNeg 1074) 1074) (-1075) = scale (twoPowNeg 1074) (1074 + -1075) ∧
      scale (scale (-infinity) 5) (-2147483648) = scale (-infinity) (5 + -2147483648) ∧
      scale (scale (twoPowNeg 1074) 1074) (-1074) = twoPowNeg 1074 := by
  obtain ⟨hjoin, hback⟩ := scale_composes
  have hleast : rational? (twoPowNeg 1074) = some (2 ^ (-1074 : ℤ)) := rational?_twoPowNeg le_rfl
  have hone : (2 : ℚ) ^ (-1074 : ℤ) * 2 ^ (1074 : Int32).toInt = 1 := by
    rw [← zpow_add₀ two_ne_zero]
    rfl
  have hscale : rational? (scale (twoPowNeg 1074) 1074) =
      some (2 ^ (-1074 : ℤ) * 2 ^ (1074 : Int32).toInt) :=
    rational?_scale hleast (by rw [hone]; exact ⟨1, rational?_one⟩)
  exact ⟨hjoin 1 1024 1024 (by decide) (by decide) (.inl (by decide)),
    hjoin _ 1074 (-1075) (by decide) (by decide) (.inr (.inr (.inr (.inr ⟨_, hleast, hscale⟩)))),
    hjoin _ 5 (-2147483648) (by decide) (by decide) (.inr (.inr (.inl (by decide)))),
    hback _ 1074 _ (by decide) hleast hscale⟩

end FloatWord
