import FloatWord.FloatClass
import FloatWord.Proofs.Powers

/-!
# Proofs — Class — the sign and the class of a double, found by arithmetic

`copySign` and `magnitude` change the sign and leave the digits (`copySign_ofDigits`,
`magnitude_ofDigits`), for every double but NaN.  The comparisons of `FloatClass.ofFloat` tell
the five kinds apart by the number (`ofFloat_of_rational?`), and so by the place of the digits
(`ofFloat_ofDigits`).
-/

namespace FloatWord

variable {x y : Float} {p : ℚ}

theorem copySign_ofDigits (s : Bool) (d : Digits) (y : Float) :
    copySign (ofDigits s d) y = ofDigits (isNegative y) d := by
  rw [copySign, isNegative_ofDigits, neg_ofDigits]
  cases s <;> cases isNegative y <;> rfl

theorem magnitude_ofDigits (s : Bool) (d : Digits) :
    magnitude (ofDigits s d) = ofDigits false d := by
  rw [magnitude, isNegative_ofDigits, neg_ofDigits]
  cases s <;> rfl

theorem rational?_copySign (hx : rational? x = some p) (y : Float) :
    rational? (copySign x y) = some (signed (isNegative y) |p|) := by
  obtain ⟨s, d, h, rfl, rfl⟩ := exists_ofDigits_of_rational? hx
  rw [copySign_ofDigits, rational?_ofDigits h, abs_signed, abs_of_nonneg d.value_nonneg]

theorem rational?_magnitude (hx : rational? x = some p) : rational? (magnitude x) = some |p| := by
  obtain ⟨s, d, h, rfl, rfl⟩ := exists_ofDigits_of_rational? hx
  rw [magnitude_ofDigits, rational?_ofDigits h, abs_signed, abs_of_nonneg d.value_nonneg]
  rfl

theorem isNegative_copySign (hx : x.isNaN = false) (y : Float) :
    isNegative (copySign x y) = isNegative y := by
  obtain ⟨s, d, -, rfl⟩ := exists_eq_ofDigits hx
  rw [copySign_ofDigits, isNegative_ofDigits]

/-- Lending its sign to 1, a double shows it. -/
theorem copySign_one_beq (x : Float) : (copySign 1 x == -1) = isNegative x := by
  have hone : isNegative 1 = false := by decide
  rw [copySign, hone, Bool.false_bne]
  cases isNegative x <;> decide

/-- So a double whose sign is taken off for that is its magnitude. -/
theorem ite_copySign_one_beq (x : Float) :
    (if copySign 1 x == -1 then -x else x) = magnitude x := by
  rw [copySign_one_beq]
  rfl

/-! ### The class -/

theorem rational?_minNormal : rational? minNormal = some (2 ^ (-1022 : ℤ)) :=
  rational?_twoPowNeg (k := 1022) (by decide)

theorem beq_infinity_of_rational? (hx : rational? x = some p) :
    (x == infinity) = false ∧ (x == -infinity) = false := by
  have hne : ∀ z : Float, z.isInf = true → z ≠ 0 → z ≠ -0 → (x == z) = false := fun z hz h₀ h₁ => by
    rw [Bool.eq_false_iff, Ne, Float.beq_iff_ne_nan_and_eq]
    rintro ⟨-, -, rfl | ⟨-, rfl⟩ | ⟨-, rfl⟩⟩
    · rw [isInf_of_rational? hx] at hz
      exact Bool.false_ne_true hz
    · exact h₁ rfl
    · exact h₀ rfl
  exact ⟨hne _ (by decide) (by decide) (by decide), hne _ (by decide) (by decide) (by decide)⟩

/-- The class of a finite double. -/
theorem ofFloat_of_rational? (hx : rational? x = some p) :
    FloatClass.ofFloat x =
      if p = 0 then .zero else if |p| < 2 ^ (-1022 : ℤ) then .subnormal else .normal := by
  obtain ⟨hinf, hinf'⟩ := beq_infinity_of_rational? hx
  rw [FloatClass.ofFloat, isNaN_of_rational? hx, hinf, hinf']
  simp only [Bool.or_self, Bool.false_eq_true, if_false, beq_iff hx rational?_zero,
    lt_iff (rational?_magnitude hx) rational?_minNormal]

theorem ofFloat_of_isInf (hx : x.isInf = true) : FloatClass.ofFloat x = .infinite := by
  rw [eq_infinity_of_isInf hx]
  cases isNegative x <;> decide

theorem ofFloat_notANumber : FloatClass.ofFloat notANumber = .nan := rfl

/-- What is neither zero nor infinite nor NaN is a number. -/
theorem exists_rational?_of_class
    (h : FloatClass.ofFloat x = .subnormal ∨ FloatClass.ofFloat x = .normal) :
    ∃ p, rational? x = some p ∧ p ≠ 0 := by
  rcases double_cases x with rfl | rfl | rfl | ⟨p, hx⟩
  · rcases h with h | h <;> cases h
  · rw [ofFloat_of_isInf (by decide)] at h
    rcases h with h | h <;> cases h
  · rw [ofFloat_of_isInf (by decide)] at h
    rcases h with h | h <;> cases h
  · refine ⟨p, hx, fun hp => ?_⟩
    rw [ofFloat_of_rational? hx, if_pos hp] at h
    rcases h with h | h <;> cases h

/-- The class of what stands at a place: zero, the subnormal and the normal numbers, the infinity,
and past it the NaNs. -/
def FloatClass.ofPlace (k : ℕ) : FloatClass :=
  if k < 2 ^ 52 then if k = 0 then .zero else .subnormal
  else if k < infinityPlace then .normal
  else if k = infinityPlace then .infinite else .nan

theorem ofFloat_ofDigits {d : Digits} (h : d.word ≤ infinityPlace) (s : Bool) :
    FloatClass.ofFloat (ofDigits s d) = .ofPlace d.word := by
  rw [FloatClass.ofPlace]
  rcases h.eq_or_lt with htop | hlt
  · rw [ofFloat_of_isInf (by rw [isInf_ofDigits, htop, decide_eq_true le_rfl]), htop]
    rfl
  have hzero : signed s d.value = 0 ↔ d.word = 0 := by
    rw [signed_eq_zero_iff, Digits.value_eq_zero_iff, Digits.word_eq_zero_iff]
  have hsub : |signed s d.value| < 2 ^ (-1022 : ℤ) ↔ d.word < 2 ^ 52 := by
    rw [abs_signed, abs_of_nonneg d.value_nonneg, Digits.word_lt_two_pow_52_iff]
  rw [ofFloat_of_rational? (rational?_ofDigits hlt)]
  simp only [hzero, hsub, hlt, if_true]
  split_ifs <;> first | rfl | omega

end FloatWord
