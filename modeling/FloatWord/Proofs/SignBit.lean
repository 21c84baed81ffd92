import FloatWord.Proofs.RoundTrip

/-!
# Proofs — SignBit — the sign shown by comparison is the top bit

A number other than zero shows its sign by its side of zero, and so does an infinity; a zero shows
it by its reciprocal.  What `isNegative` finds in this way is the top bit of the word, which it
never looks at (`isNegative_eq_toBits`).  NaN is apart.  Its words have a top bit as well, but
`Float` has one NaN only: `Float.ofBits` reads all of them as that one, and what is said about NaN
here is said about it (`isNegative_of_isNaN`).

`copySign` and `magnitude` change a sign by negation.  That moves the top bit and nothing below it
(`toBits_copySign_and_not_signMask`, `toBits_magnitude`), so the magnitude and the sign of a double
make the double again (`copySign_magnitude`).  `sign_is_top_bit` is all of this together.
-/

namespace FloatWord

variable {x : Float} {w : Word} {p : ℚ}

/-! ### Finding the sign -/

theorem isNegative_eq_toBits (hx : x.isNaN = false) :
    isNegative x = (x.toBits &&& signMask != 0) := by
  obtain ⟨s, d, -, rfl⟩ := exists_eq_ofDigits hx
  rw [isNegative_ofDigits, and_signMask_bne, le_toNat_toBits_ofDigits]

/-- The one NaN counts as positive. -/
theorem isNegative_of_isNaN (hx : x.isNaN = true) : isNegative x = false := by
  rw [eq_notANumber hx]
  decide

/-- The words of NaN are read as the one NaN, whatever their top bit. -/
theorem isNaN_ofBits_of_isNaNWord (hw : IsNaNWord w) : (Float.ofBits w).isNaN = true := by
  rw [ofBits_of_isNaNWord hw]
  decide

/-! ### Changing the sign -/

/-- A NaN stays one under any sign, and no other double becomes one. -/
theorem isNaN_copySign (x y : Float) : (copySign x y).isNaN = x.isNaN := by
  cases hx : x.isNaN with
  | true =>
      rw [eq_notANumber hx, copySign]
      split <;> decide
  | false =>
      obtain ⟨s, d, -, rfl⟩ := exists_eq_ofDigits hx
      rw [copySign_ofDigits, isNaN_ofDigits]

/-- Below the top bit a double keeps its word under another sign, -/
theorem toBits_copySign_and_not_signMask (hx : x.isNaN = false) (y : Float) :
    (copySign x y).toBits &&& ~~~signMask = x.toBits &&& ~~~signMask := by
  obtain ⟨s, d, -, rfl⟩ := exists_eq_ofDigits hx
  refine UInt64.toNat_inj.mp ?_
  rw [copySign_ofDigits, toNat_and_not_signMask, toNat_and_not_signMask,
    toNat_toBits_ofDigits_mod, toNat_toBits_ofDigits_mod]

/-- and the top bit is the sign that it takes. -/
theorem toBits_copySign_and_signMask (hx : x.isNaN = false) (y : Float) :
    ((copySign x y).toBits &&& signMask != 0) = isNegative y := by
  have hcopy : (copySign x y).isNaN = false := by rw [isNaN_copySign, hx]
  rw [← isNegative_eq_toBits hcopy, isNegative_copySign hx]

/-- The magnitude is the rest of the word. -/
theorem toBits_magnitude (hx : x.isNaN = false) :
    (magnitude x).toBits = x.toBits &&& ~~~signMask := by
  obtain ⟨s, d, -, rfl⟩ := exists_eq_ofDigits hx
  refine UInt64.toNat_inj.mp ?_
  rw [magnitude_ofDigits, toNat_and_not_signMask, toNat_toBits_ofDigits_mod, toNat_toBits_ofDigits]
  exact Nat.zero_add _

/-- The magnitude takes the sign back. -/
theorem copySign_magnitude (hx : x.isNaN = false) : copySign (magnitude x) x = x := by
  obtain ⟨s, d, -, rfl⟩ := exists_eq_ofDigits hx
  rw [magnitude_ofDigits, copySign_ofDigits, isNegative_ofDigits]

/-- Under a sign that is not negative, a double is its magnitude. -/
theorem copySign_eq_magnitude {y : Float} (hy : isNegative y = false) (x : Float) :
    copySign x y = magnitude x := by
  rw [copySign, hy, Bool.bne_false, magnitude]

/-- **The sign found by arithmetic is the top bit.**  Off NaN `isNegative` is the top bit of the
word, at zeros, infinities and subnormal numbers too.  `Float` has one NaN, and `Float.ofBits` reads
every NaN word as it, without its sign and payload; it is positive, and lends that sign.  Under the
sign of another, a double keeps its word below the top bit, which is set exactly when the other is
negative; NaN stays NaN.  The magnitude of a double is its word without the top bit, and under the
sign of the double it has the whole word again. -/
theorem sign_is_top_bit :
    (∀ x : Float, x.isNaN = false → isNegative x = (x.toBits &&& signMask != 0)) ∧
    isNegative (-0) = true ∧ isNegative (-infinity) = true ∧
    (∀ x p, rational? x = some p → p < 0 → isNegative x = true) ∧
    (∀ x : Float, x.isNaN = true → isNegative x = false) ∧
    (∀ w : Word, IsNaNWord w → isNegative (Float.ofBits w) = false ∧
      ∀ m : Float, m.isNaN = false →
        (copySign m (Float.ofBits w)).toBits = m.toBits &&& ~~~signMask) ∧
    (∀ m s : Float, m.isNaN = false →
      (copySign m s).toBits &&& ~~~signMask = m.toBits &&& ~~~signMask ∧
        ((copySign m s).toBits &&& signMask != 0) = isNegative s) ∧
    (∀ m s : Float, m.isNaN = true → (copySign m s).isNaN = true) ∧
    ∀ x : Float, x.isNaN = false →
      (magnitude x).toBits = x.toBits &&& ~~~signMask ∧
        (copySign (magnitude x) x).toBits = x.toBits := by
  refine ⟨fun x => isNegative_eq_toBits, by decide, by decide, fun x p => isNegative_of_neg,
    fun x => isNegative_of_isNaN, fun w hw => ?_, fun m s hm => ?_, fun m s hm => ?_,
    fun x hx => ?_⟩
  · have hpos := isNegative_of_isNaN (isNaN_ofBits_of_isNaNWord hw)
    refine ⟨hpos, fun m hm => ?_⟩
    rw [copySign_eq_magnitude hpos, toBits_magnitude hm]
  · exact ⟨toBits_copySign_and_not_signMask hm s, toBits_copySign_and_signMask hm s⟩
  · rw [isNaN_copySign, hm]
  · exact ⟨toBits_magnitude hx, congrArg Float.toBits (copySign_magnitude hx)⟩

/-- A zero under the sign of an infinity, the smallest number below zero, and NaN on either side.  A
NaN word with its top bit set is no other NaN: `Float.ofBits` reads it as the one there is. -/
theorem sign_is_top_bit_edges :
    isNegative (-twoPowNeg 1074) = true ∧
      isNegative notANumber = false ∧
      (copySign 0 (-infinity)).toBits &&& ~~~signMask = (0 : Float).toBits &&& ~~~signMask ∧
      ((copySign 0 (-infinity)).toBits &&& signMask != 0) = isNegative (-infinity) ∧
      (copySign (-infinity) (Float.ofBits 0xFFF8000000000001)).toBits =
        (-infinity).toBits &&& ~~~signMask ∧
      (copySign notANumber (-1)).isNaN = true ∧
      (copySign (magnitude (-0)) (-0)).toBits = (-0 : Float).toBits ∧
      isNegative (-0) = ((-0 : Float).toBits &&& signMask != 0) := by
  obtain ⟨hbit, -, -, hbelow, hnan, hword, hcopy, hstays, hback⟩ := sign_is_top_bit
  have hleast : rational? (-twoPowNeg 1074) = some (-2 ^ (-1074 : ℤ)) :=
    rational?_neg (rational?_twoPowNeg le_rfl)
  obtain ⟨hrest, htop⟩ := hcopy 0 (-infinity) (by decide)
  exact ⟨hbelow _ _ hleast (neg_lt_zero.mpr (by positivity)), hnan _ (by decide), hrest, htop,
    (hword 0xFFF8000000000001 (by decide)).2 (-infinity) (by decide), hstays _ _ (by decide),
    (hback (-0) (by decide)).2, hbit (-0) (by decide)⟩

end FloatWord
