import FloatWord.Proofs.RoundTrip

/-!
# Proofs — FieldViews — the fields of a word tell what its double is

The double of a word can be asked by comparisons, or its word by fields.  For the class both come
down to the place: `ofFloat_ofDigits` from the side of the double, `floatClass_ofWord` from the
side of the word, and decoding keeps the place.  So the two answers are one (`classifiers_agree`),
NaNs included, and encoding inherits that from the round trip.

Taking a word apart loses nothing (`toWord_ofWord`).  So the fields also tell whether the word is
one that a double is encoded to: `Fields.isCanonical` refuses the words of NaN but one
(`isCanonical_ofWord`), and these are the words that decoding and encoding change
(`isCanonical_iff_encoded`).
-/

namespace FloatWord

/-! ### The class -/

/-- Comparing the double of a word finds the class that the fields of the word spell out. -/
theorem ofFloat_decode (w : Word) :
    FloatClass.ofFloat (decode w) = (Fields.ofWord w).floatClass := by
  rcases le_or_gt (w.toNat % 2 ^ 63) infinityPlace with h | h
  · have hplace : (Digits.ofWord (w.toNat % 2 ^ 63)).word ≤ infinityPlace := by
      rwa [Digits.word_ofWord]
    rw [decode_of_le h, ofFloat_ofDigits hplace, Digits.word_ofWord, floatClass_ofWord]
  · rw [decode_of_nan h, floatClass_of_nan h, ofFloat_notANumber]

/-- **The two classifiers agree**, on every double and on every word: NaNs, both signs, and both
sides of the smallest normal number. -/
theorem classifiers_agree :
    (∀ x, FloatClass.ofFloat x = (Fields.ofWord (encode x)).floatClass) ∧
    ∀ w, FloatClass.ofFloat (decode w) = (Fields.ofWord w).floatClass := by
  refine ⟨fun x => ?_, ofFloat_decode⟩
  cases hx : x.isNaN with
  | false => rw [← ofFloat_decode, decode_encode hx]
  | true =>
      rw [eq_notANumber hx, encode_notANumber, ofFloat_notANumber]
      decide

theorem floatClass_eq_nan_iff (w : Word) :
    (Fields.ofWord w).floatClass = .nan ↔ IsNaNWord w := by
  rw [isNaNWord_iff]
  refine ⟨fun h => ?_, floatClass_of_nan⟩
  have htop : 2 ^ 52 < infinityPlace := by decide
  rw [floatClass_ofWord, FloatClass.ofPlace] at h
  split_ifs at h
  omega

/-! ### Taking apart and joining -/

theorem toNat_and_maxBiasedExponent (b : UInt16) :
    (b &&& maxBiasedExponent).toNat = b.toNat % 2 ^ 11 := by
  have hmax : maxBiasedExponent.toNat = 2 ^ 11 - 1 := by decide
  rw [UInt16.toNat_and, hmax, Nat.and_two_pow_sub_one_eq_mod]

/-- Cut down to its places, the exponent moves to its field whole. -/
theorem toNat_and_maxBiasedExponent_shiftLeft (b : UInt16) :
    ((b &&& maxBiasedExponent).toUInt64 <<< mantissaBits.toUInt64).toNat =
      (b &&& maxBiasedExponent).toNat * 2 ^ 52 := by
  have hlt : (b &&& maxBiasedExponent).toUInt64.toNat < 2 ^ 11 := by
    rw [UInt16.toNat_toUInt64, toNat_and_maxBiasedExponent]
    omega
  rw [Significand.toNat_shiftLeft_mantissaBits hlt, UInt16.toNat_toUInt64]

/-- Joining keeps the sign and cuts the other two fields down to their places. -/
theorem toNat_toWord (f : Fields) :
    f.toWord.toNat = (if f.negative then 2 ^ 63 else 0) +
      (f.biasedExponent.toNat % 2 ^ 11 * 2 ^ 52 + f.mantissa.toNat % 2 ^ 52) := by
  have hlt : f.biasedExponent.toNat % 2 ^ 11 * 2 ^ 52 + f.mantissa.toNat % 2 ^ 52 < 2 ^ 63 := by
    omega
  have hmant : f.mantissa.toNat % 2 ^ 52 < 2 ^ 52 := Nat.mod_lt _ (by decide)
  have hlow : ((f.biasedExponent &&& maxBiasedExponent).toUInt64 <<< mantissaBits.toUInt64 |||
      f.mantissa &&& mantissaMask).toNat =
        f.biasedExponent.toNat % 2 ^ 11 * 2 ^ 52 + f.mantissa.toNat % 2 ^ 52 := by
    rw [UInt64.toNat_or, toNat_and_maxBiasedExponent_shiftLeft, toNat_and_maxBiasedExponent,
      toNat_and_mantissaMask, ← Nat.shiftLeft_eq, Nat.shiftLeft_add_eq_or_of_lt hmant]
  rw [Fields.toWord, UInt64.or_assoc, UInt64.toNat_or, hlow]
  cases f.negative
  · exact (Nat.zero_or _).trans (Nat.zero_add _).symm
  · have hsign : signMask.toNat = 1 <<< 63 := by decide
    rw [if_pos rfl, if_pos rfl, hsign, ← Nat.shiftLeft_add_eq_or_of_lt hlt, Nat.one_shiftLeft]

/-- The fields of a word, joined, are the word. -/
theorem toWord_ofWord (w : Word) : (Fields.ofWord w).toWord = w := by
  have hw := w.toNat_lt
  have hsign : (Fields.ofWord w).negative = decide (2 ^ 63 ≤ w.toNat) := and_signMask_bne w
  refine UInt64.toNat_inj.mp ?_
  rw [toNat_toWord, hsign, toNat_biasedExponent, toNat_mantissa]
  simp only [decide_eq_true_eq]
  split <;> omega

/-! ### The words that are encodings -/

theorem isCanonical_ofWord (w : Word) :
    (Fields.ofWord w).isCanonical = true ↔ (IsNaNWord w → w = canonicalNaN) := by
  rw [Fields.isCanonical, toWord_ofWord, Bool.or_eq_true, bne_iff_ne, beq_iff_eq, Ne,
    floatClass_eq_nan_iff, imp_iff_not_or]

/-- Decoding an encoding and encoding it again changes nothing, -/
theorem encode_decode_encode (x : Float) : encode (decode (encode x)) = encode x := by
  cases hx : x.isNaN with
  | false => rw [decode_encode hx]
  | true => rw [eq_notANumber hx, encode_notANumber, encode_decode_eq_ite, ite_self]

/-- so the words that doubles are encoded to are those that this keeps. -/
theorem exists_encode_eq_iff (w : Word) : (∃ x, encode x = w) ↔ encode (decode w) = w := by
  refine ⟨?_, fun h => ⟨decode w, h⟩⟩
  rintro ⟨x, rfl⟩
  exact encode_decode_encode x

/-- **The canonical words are the encodings.**  The fields of a word are canonical if and only if
some double is encoded to it, and then its own double is. -/
theorem isCanonical_iff_encoded (w : Word) :
    ((Fields.ofWord w).isCanonical = true ↔ ∃ x, encode x = w) ∧
      ((∃ x, encode x = w) ↔ encode (decode w) = w) := by
  refine ⟨?_, exists_encode_eq_iff w⟩
  rw [exists_encode_eq_iff, isCanonical_ofWord, encode_decode_eq_ite]
  by_cases hw : IsNaNWord w
  · rw [if_pos hw]
    exact ⟨fun h => (h hw).symm, fun h _ => h.symm⟩
  · rw [if_neg hw]
    exact ⟨fun _ => rfl, fun _ hnan => absurd hnan hw⟩

end FloatWord
