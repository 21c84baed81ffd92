import FloatWord.Proofs.Monotone

/-!
# Proofs — Projecting — rounding to integers is a monotone projection

A double is rounded to the integer nearest to its number, and that integer grows with the number
(`IsNearestInt.mono`); an infinity stays where it is.  So rounding keeps the order
(`roundTiesEven_le_roundTiesEven`), across the guard at `2 ^ 52` and across zero, where the two
zeros compare equal.

What rounding leaves as it is are the infinities and the integers, since an integer is its own
nearest one and the sign is kept (`roundTiesEven_eq_self_iff`).  The result of rounding is one of
these, so rounding it again changes nothing.
-/

namespace FloatWord

variable {x y : Float} {p q : ℚ}

/-! ### The order -/

/-- The number of a rounded double is the integer nearest to its own. -/
theorem exists_isNearestInt_roundTiesEven (hx : rational? x = some q) :
    ∃ n : ℤ, IsNearestInt q n ∧ rational? (roundTiesEven x) = some (n : ℚ) := by
  obtain ⟨m, hm, hround, -⟩ := exists_rational?_roundTiesEven hx
  obtain ⟨n, hn, hcast⟩ := hm.signed (isNegative x)
  rw [signed_isNegative hx] at hn
  exact ⟨n, hn, by rw [hround, hcast]⟩

theorem isNaN_roundTiesEven (hx : x.isNaN = false) : (roundTiesEven x).isNaN = false := by
  rcases isSpecial_or_ne_zero x with hspecial | ⟨q, hq, -⟩
  · rwa [roundTiesEven_of_isSpecial hspecial]
  · obtain ⟨n, -, hround⟩ := exists_isNearestInt_roundTiesEven hq
    exact isNaN_of_rational? hround

theorem roundTiesEven_of_isInf (hx : x.isInf = true) : roundTiesEven x = x :=
  roundTiesEven_of_isSpecial (.inr (.inl hx))

/-- A larger double is rounded to one no smaller. -/
theorem roundTiesEven_le_roundTiesEven (h : x ≤ y) : roundTiesEven x ≤ roundTiesEven y := by
  refine related_of_le (r := (· ≤ ·)) ?top ?bottom ?number h
  case top =>
    intro z hz
    rw [roundTiesEven_of_isInf (x := infinity) (by decide)]
    exact le_infinity (isNaN_roundTiesEven hz)
  case bottom =>
    intro z hz
    rw [roundTiesEven_of_isInf (x := -infinity) (by decide)]
    exact neg_infinity_le (isNaN_roundTiesEven hz)
  case number =>
    intro z w p q hz hw hpq
    obtain ⟨m, hm, hround⟩ := exists_isNearestInt_roundTiesEven hz
    obtain ⟨n, hn, hround'⟩ := exists_isNearestInt_roundTiesEven hw
    rw [le_iff hround hround', Int.cast_le]
    exact hm.mono hn hpq

/-! ### What is left as it is -/

theorem roundTiesEven_of_intCast {n : ℤ} (hx : rational? x = some (n : ℚ)) :
    roundTiesEven x = x := by
  obtain ⟨m, hm, hround⟩ := exists_isNearestInt_roundTiesEven hx
  obtain ⟨-, -, -, hsign⟩ := exists_rational?_roundTiesEven hx
  rw [hm.unique (isNearestInt_intCast n)] at hround
  exact eq_of_rational? hround hx hsign

/-- Rounding leaves the infinities and the integers as they are, and nothing else but NaN. -/
theorem roundTiesEven_eq_self_iff (hx : x.isNaN = false) :
    roundTiesEven x = x ↔ x.isInf = true ∨ ∃ n : ℤ, rational? x = some (n : ℚ) := by
  constructor
  · intro hself
    rcases double_cases x with rfl | rfl | rfl | ⟨q, hq⟩
    · exact absurd hx (by decide)
    · exact .inl (by decide)
    · exact .inl (by decide)
    · obtain ⟨n, -, hround⟩ := exists_isNearestInt_roundTiesEven hq
      rw [hself] at hround
      exact .inr ⟨n, hround⟩
  · rintro (hinf | ⟨n, hn⟩)
    · exact roundTiesEven_of_isInf hinf
    · exact roundTiesEven_of_intCast hn

theorem roundTiesEven_roundTiesEven (x : Float) :
    roundTiesEven (roundTiesEven x) = roundTiesEven x := by
  rcases isSpecial_or_ne_zero x with hspecial | ⟨q, hq, -⟩
  · rw [roundTiesEven_of_isSpecial hspecial, roundTiesEven_of_isSpecial hspecial]
  · obtain ⟨n, -, hround⟩ := exists_isNearestInt_roundTiesEven hq
    exact roundTiesEven_of_intCast hround

/-- **Rounding to integers is a monotone projection.**  It keeps the order of the doubles, the
infinities included; what it gives, it gives again; and what it leaves as it is, down to the sign of
a zero, are the infinities and the doubles whose number is an integer. -/
theorem roundTiesEven_projection :
    (∀ x y : Float, x ≤ y → roundTiesEven x ≤ roundTiesEven y) ∧
      (∀ x : Float, roundTiesEven (roundTiesEven x) = roundTiesEven x) ∧
      ∀ x : Float, x.isNaN = false →
        (roundTiesEven x = x ↔ x.isInf = true ∨ ∃ n : ℤ, rational? x = some (n : ℚ)) :=
  ⟨fun _ _ => roundTiesEven_le_roundTiesEven, roundTiesEven_roundTiesEven,
    fun _ => roundTiesEven_eq_self_iff⟩

/-- The largest double below `2 ^ 52` against `2 ^ 52` itself, a number that is rounded to the
negative zero against the positive one, and what is an integer and what is not. -/
theorem roundTiesEven_projection_edges :
    roundTiesEven 4503599627370495.5 ≤ roundTiesEven 4503599627370496 ∧
      roundTiesEven (-0.25) ≤ roundTiesEven 0 ∧
      roundTiesEven (roundTiesEven (-0.25)) = roundTiesEven (-0.25) ∧
      roundTiesEven (-0) = -0 ∧
      roundTiesEven (-infinity) = -infinity ∧
      roundTiesEven 0.5 ≠ 0.5 := by
  obtain ⟨hmono, hagain, hself⟩ := roundTiesEven_projection
  refine ⟨hmono _ _ (by decide), hmono _ _ (by decide), hagain _,
    (hself _ (by decide)).mpr (.inr ⟨0, rational?_neg rational?_zero⟩),
    (hself _ (by decide)).mpr (.inl (by decide)), fun hhalf => ?_⟩
  rcases (hself 0.5 (by decide)).mp hhalf with hinf | ⟨n, hn⟩
  · exact absurd hinf (by decide)
  · -- a half is no integer
    have hcast : (2 : ℚ) ^ (-1 : ℤ) = n := Option.some.inj (rational?_half.symm.trans hn)
    have hodd : (1 : ℚ) = (2 * n : ℤ) := by
      rw [Int.cast_mul, ← hcast]
      norm_num
    have hodd : (1 : ℤ) = 2 * n := by exact_mod_cast hodd
    omega

end FloatWord
