import FloatWord.Packing
import FloatWord.Proofs.RoundTrip
import FloatWord.Proofs.Rescaling

/-!
# Proofs — Symmetry — a double and its negative

Negation flips the sign and leaves the digits, and each function treats the two signs alike, in its
own way.

* Scaling rounds once, and rounding to nearest prefers no sign (`IsNearest.neg`).
* A split is the only one of its number, and the negated fraction makes one of the negated number
  (`ofFloat_neg`).
* Rounding to an integer and the class look at the magnitude; the rounding then lends the result
  the sign of the argument (`copySign_neg`).
* A word has the sign in its top bit alone (`place_xor_signMask`, `sign_xor_signMask`), which is the
  sign that decoding lends to the digits; the round trip carries this to encoding.

Two doubles are equal here only if their words are, so each equation holds of zeros with their
signs (`sign_symmetry`).
-/

namespace FloatWord

variable {x y : Float} {q : ℚ} {s : Bool} {w : Word}

/-! ### Negation -/

theorem neg_neg_eq (x : Float) : - -x = x := by
  cases hx : x.isNaN with
  | true =>
      rw [eq_notANumber hx]
      decide
  | false =>
      obtain ⟨s, d, -, rfl⟩ := exists_eq_ofDigits hx
      rw [neg_ofDigits, neg_ofDigits, Bool.not_not]

theorem isInf_neg (hx : x.isNaN = false) : (-x).isInf = x.isInf := by
  obtain ⟨s, d, -, rfl⟩ := exists_eq_ofDigits hx
  rw [neg_ofDigits, isInf_ofDigits, isInf_ofDigits]

theorem isSpecial_neg (hx : IsSpecial x) : IsSpecial (-x) := by
  rcases hx with hx | hx | hx
  · rw [eq_notANumber hx]
    exact .inl (by decide)
  · rw [eq_infinity_of_isInf hx]
    cases isNegative x <;> exact .inr (.inl (by decide))
  · exact .inr (.inr (by rw [rational?_neg hx, neg_zero]))

theorem neg_beq_zero (x : Float) : (-x == 0) = (x == 0) := by
  rcases double_cases x with rfl | rfl | rfl | ⟨p, hx⟩
  · decide
  · decide
  · decide
  · rw [Bool.eq_iff_iff, beq_iff (rational?_neg hx) rational?_zero, beq_iff hx rational?_zero,
      neg_eq_zero]

theorem magnitude_neg (hx : x.isNaN = false) : magnitude (-x) = magnitude x := by
  obtain ⟨s, d, -, rfl⟩ := exists_eq_ofDigits hx
  rw [neg_ofDigits, magnitude_ofDigits, magnitude_ofDigits]

/-- The class does not depend on the sign. -/
theorem floatClass_neg (hx : x.isNaN = false) : FloatClass.ofFloat (-x) = FloatClass.ofFloat x := by
  obtain ⟨s, d, hle, rfl⟩ := exists_eq_ofDigits hx
  rw [neg_ofDigits, ofFloat_ofDigits hle, ofFloat_ofDigits hle]

/-- Whatever lends its sign, its negative lends the other one. -/
theorem copySign_neg (x : Float) (hy : y.isNaN = false) : copySign x (-y) = -copySign x y := by
  rw [copySign, copySign, isNegative_neg hy]
  cases isNegative x <;> cases isNegative y <;> first | rfl | exact (neg_neg_eq x).symm

/-! ### Scaling, splitting, rounding -/

/-- Rounding to nearest prefers no sign: the doubles lie alike on both sides of zero, and a word
and that of the negative end in the same bit. -/
theorem IsNearest.neg (h : IsNearest s q y) : IsNearest (!s) (-q) (-y) := by
  have hnan := h.isNaN_eq
  obtain ⟨hs, h⟩ := h
  refine ⟨by rw [isNegative_neg hnan, hs], ?_⟩
  rw [abs_neg]
  split
  · rename_i hthr
    rw [if_pos hthr] at h
    rwa [isInf_neg hnan]
  rename_i hthr
  rw [if_neg hthr] at h
  obtain ⟨v, hv, h⟩ := h
  refine ⟨-v, rational?_neg hv, fun z w hz => ?_⟩
  obtain ⟨hle, htie⟩ := h (-z) (-w) (rational?_neg hz)
  have hdist : |-q - -v| = |q - v| := by rw [neg_sub_neg, abs_sub_comm]
  have hdist' : |-q - w| = |q - -w| := by
    rw [sub_neg_eq_add, ← abs_neg (q + w), neg_add, ← sub_eq_add_neg]
  rw [hdist, hdist']
  refine ⟨hle, fun heq => ?_⟩
  rcases htie heq with hvw | heven
  · exact .inl (by rw [hvw, neg_neg])
  · obtain ⟨t, d, hd, rfl, -⟩ := exists_ofDigits_of_rational? hv
    rw [toBits_and_one_ofDigits hd] at heven
    rw [neg_ofDigits, toBits_and_one_ofDigits hd]
    exact .inr heven

theorem scale_neg (x : Float) (n : Int32) : scale (-x) n = -scale x n := by
  rcases isSpecial_or_ne_zero x with hx | ⟨q, hx, hq⟩
  · rw [scale_of_isSpecial hx, scale_of_isSpecial (isSpecial_neg hx)]
  · have hround := isNearest_scale (rational?_neg hx) (neg_ne_zero.mpr hq) n
    rw [isNegative_neg (isNaN_of_rational? hx), neg_mul] at hround
    exact hround.unique (isNearest_scale hx hq n).neg

theorem ofFloat_neg (x : Float) :
    Split.ofFloat (-x) = ⟨-(Split.ofFloat x).fraction, (Split.ofFloat x).exponent⟩ := by
  rcases isSpecial_or_ne_zero x with hx | ⟨q, hx, hq⟩
  · rw [Split.ofFloat_of_isSpecial hx, Split.ofFloat_of_isSpecial (isSpecial_neg hx)]
  · have hx' := rational?_neg hx
    have hq' := neg_ne_zero.mpr hq
    obtain ⟨f, hst, hf, hf'⟩ := Split.exists_stands_ofFloat hx hq
    obtain ⟨g, hst', hg, hg'⟩ := Split.exists_stands_ofFloat hx' hq'
    have hsame : g * 2 ^ (Split.ofFloat (-x)).exponent.toInt =
        -f * 2 ^ (Split.ofFloat x).exponent.toInt := by
      rw [hst'.value, neg_mul, hst.value]
    rw [← abs_neg] at hf hf'
    obtain ⟨rfl, he⟩ := fraction_unique hf hf' hg hg' hsame
    have hsign : isNegative (Split.ofFloat (-x)).fraction =
        isNegative (-(Split.ofFloat x).fraction) := by
      rw [hst'.isNegative_eq hx' hq', isNegative_neg (isNaN_of_rational? hx),
        isNegative_neg (isNaN_of_rational? hst.fraction), hst.isNegative_eq hx hq]
    exact congrArg₂ Split.mk (eq_of_rational? hst'.fraction (rational?_neg hst.fraction) hsign)
      (Int32.toInt_inj.mp he)

theorem roundTiesEven_neg (hx : x.isNaN = false) : roundTiesEven (-x) = -roundTiesEven x := by
  rw [roundTiesEven, roundTiesEven, neg_beq_zero, magnitude_neg hx]
  split
  · rfl
  · exact copySign_neg _ hx

/-! ### The top bit of a word -/

/-- Flipping the top bit leaves the place, -/
theorem place_xor_signMask (w : Word) : (w ^^^ signMask).toNat % 2 ^ 63 = w.toNat % 2 ^ 63 := by
  have hmask : signMask.toNat = 2 ^ 63 := by decide
  rw [UInt64.toNat_xor, Nat.xor_mod_two_pow, hmask, Nat.mod_self, Nat.xor_zero]

/-- and changes the sign. -/
theorem sign_xor_signMask (w : Word) :
    decide (2 ^ 63 ≤ (w ^^^ signMask).toNat) = !decide (2 ^ 63 ≤ w.toNat) := by
  have hw := w.toNat_lt
  have hmask : signMask.toNat / 2 ^ 63 = 1 := by decide
  have hdiv : (w ^^^ signMask).toNat / 2 ^ 63 = w.toNat / 2 ^ 63 ^^^ 1 := by
    rw [UInt64.toNat_xor, Nat.xor_div_two_pow, hmask]
  rw [← decide_not, decide_eq_decide, not_le]
  rcases (by omega : w.toNat / 2 ^ 63 = 0 ∨ w.toNat / 2 ^ 63 = 1) with h | h <;> rw [h] at hdiv
  · have hone : (0 ^^^ 1 : ℕ) = 1 := by decide
    omega
  · have hzero : (1 ^^^ 1 : ℕ) = 0 := by decide
    omega

theorem decode_xor_signMask (hw : ¬ IsNaNWord w) : decode (w ^^^ signMask) = -decode w := by
  rw [isNaNWord_iff, not_lt] at hw
  rw [decode_of_le hw, decode_of_le (by rwa [place_xor_signMask]), place_xor_signMask,
    sign_xor_signMask, neg_ofDigits]

theorem not_isNaNWord_encode (hx : x.isNaN = false) : ¬ IsNaNWord (encode x) := by
  obtain ⟨s, d, -, rfl⟩ := exists_eq_ofDigits hx
  rw [isNaNWord_iff, encode_eq_toBits hx, toNat_toBits_ofDigits_mod]
  exact (min_le_right _ _).not_gt

theorem encode_neg (hx : x.isNaN = false) : encode (-x) = encode x ^^^ signMask := by
  have hw := not_isNaNWord_encode hx
  have hflip : ¬ IsNaNWord (encode x ^^^ signMask) := by
    rwa [isNaNWord_iff, place_xor_signMask, ← isNaNWord_iff]
  have hdecode := decode_xor_signMask hw
  rw [decode_encode hx] at hdecode
  rw [← hdecode, encode_decode hflip]

/-- **Nothing prefers a sign.**  The word of a negated double has the other top bit; its split the
negated fraction; scaled or rounded, it is the negated result; its class and magnitude are the same;
and a word with the other top bit is decoded to the negated double. -/
theorem sign_symmetry :
    (∀ x : Float, x.isNaN = false →
      encode (-x) = encode x ^^^ signMask ∧
      (∀ f e, Split.ofFloat x = ⟨f, e⟩ → Split.ofFloat (-x) = ⟨-f, e⟩) ∧
      (∀ n, scale (-x) n = -scale x n) ∧
      roundTiesEven (-x) = -roundTiesEven x ∧
      FloatClass.ofFloat (-x) = FloatClass.ofFloat x ∧
      magnitude (-x) = magnitude x) ∧
    ∀ w : Word, ¬ IsNaNWord w → decode (w ^^^ signMask) = -decode w := by
  refine ⟨fun x hx => ⟨encode_neg hx, fun f e h => ?_, scale_neg x, roundTiesEven_neg hx,
    floatClass_neg hx, magnitude_neg hx⟩, fun w => decode_xor_signMask⟩
  rw [ofFloat_neg, h]

/-- At the zeros, and where the smallest number is scaled to one. -/
theorem sign_symmetry_edges :
    encode (-0) = encode 0 ^^^ signMask ∧ roundTiesEven (-0) = -roundTiesEven 0 ∧
      scale (-twoPowNeg 1074) (-1) = -scale (twoPowNeg 1074) (-1) ∧
      decode (1 ^^^ signMask) = -decode 1 := by
  obtain ⟨hdouble, hword⟩ := sign_symmetry
  obtain ⟨hencode, -, -, hround, -⟩ := hdouble 0 (by decide)
  have hleast : rational? (twoPowNeg 1074) = some (2 ^ (-1074 : ℤ)) := rational?_twoPowNeg le_rfl
  obtain ⟨-, -, hscale, -⟩ := hdouble (twoPowNeg 1074) (isNaN_of_rational? hleast)
  exact ⟨hencode, hround, hscale (-1), hword 1 (by decide)⟩

end FloatWord
