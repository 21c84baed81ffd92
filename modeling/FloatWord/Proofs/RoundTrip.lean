import FloatWord.Proofs.Encoding
import FloatWord.Proofs.Decoding

/-!
# Proofs — RoundTrip — encoding and decoding undo each other

Off the NaNs, `encode` finds the host's word and `decode` the double of the sign and the digits;
the host's word of that double is the word again (`encode_decode`), and the digits of a double are
at the place of its word (`decode_encode`).  All NaN words decode to the one NaN, and it encodes to
`canonicalNaN`.
-/

namespace FloatWord

variable {w : Word} {x : Float}

/-- The NaN words are those past the infinities. -/
theorem isNaNWord_iff (w : Word) : IsNaNWord w ↔ infinityPlace < w.toNat % 2 ^ 63 := by
  have hall : exponentMask.toNat = 2047 * 2 ^ 52 := by decide
  rw [IsNaNWord, Ne, ← UInt64.toNat_inj, ← UInt64.toNat_inj, toNat_and_exponentMask,
    toNat_and_mantissaMask, hall, UInt64.toNat_zero]
  unfold infinityPlace
  omega

theorem decode_encode (hx : x.isNaN = false) : decode (encode x) = x := by
  obtain ⟨s, d, hle, rfl⟩ := exists_eq_ofDigits hx
  have hword := toNat_toBits_ofDigits_mod s d
  rw [min_eq_left hle] at hword
  rw [encode_eq_toBits hx, decode_of_le (hword.trans_le hle), hword, le_toNat_toBits_ofDigits,
    Digits.ofWord_word]

theorem encode_decode (hw : ¬ IsNaNWord w) : encode (decode w) = w := by
  rw [isNaNWord_iff, not_lt] at hw
  refine UInt64.toNat_inj.mp ?_
  rw [decode_of_le hw, encode_eq_toBits (isNaN_ofDigits _ _), toNat_toBits_ofDigits,
    Digits.word_ofWord, min_eq_left hw]
  simp only [decide_eq_true_eq]
  have hlt := w.toNat_lt
  split <;> omega

/-- A word comes back as it was, unless it is NaN. -/
theorem encode_decode_eq_ite (w : Word) :
    encode (decode w) = if IsNaNWord w then canonicalNaN else w := by
  split
  · rename_i hw
    rw [decode_of_nan ((isNaNWord_iff w).mp hw), encode_notANumber]
  · rename_i hw
    exact encode_decode hw

theorem ofBits_of_isNaNWord (hw : IsNaNWord w) : Float.ofBits w = notANumber := by
  show Float.ofModel (Float.Model.pack
    (Float.Model.UnpackedFloat.unpack Float.Model.Format.binary64 w.toBitVec)) = _
  rw [unpack_nanWord ((isNaNWord_iff w).mp hw)]
  rfl

/-- **The codec is a round trip**, from either side, on everything but NaN.  `Float` has one NaN,
without a sign or a payload, and it is encoded to `canonicalNaN`.  Every NaN word, of either sign
and any payload, is read as that one, by `Float.ofBits` as by `decode`, and so it comes back as
`canonicalNaN`. -/
theorem codec_round_trip :
    (∀ x : Float, x.isNaN = false → decode (encode x) = x) ∧
    (∀ w : Word, ¬ IsNaNWord w → encode (decode w) = w) ∧
    (∀ x : Float, x.isNaN = true → encode x = canonicalNaN) ∧
    ∀ w : Word, IsNaNWord w →
      (Float.ofBits w).isNaN = true ∧ encode (Float.ofBits w) = canonicalNaN ∧
      (decode w).isNaN = true ∧ encode (decode w) = canonicalNaN := by
  have hnan : ∀ x : Float, x.isNaN = true → encode x = canonicalNaN := fun x hx => by
    rw [eq_notANumber hx, encode_notANumber]
  refine ⟨fun x => decode_encode, fun w => encode_decode, hnan, fun w hw => ?_⟩
  have hbits : (Float.ofBits w).isNaN = true := by
    rw [ofBits_of_isNaNWord hw]
    decide
  have hdecode : (decode w).isNaN = true := by
    rw [decode_of_nan ((isNaNWord_iff w).mp hw)]
    decide
  exact ⟨hbits, hnan _ hbits, hdecode, hnan _ hdecode⟩

theorem codec_round_trip_edges :
    decode (encode (-0)) = -0 ∧ encode (decode 1) = 1 ∧ encode notANumber = canonicalNaN ∧
      encode (decode 0xFFF0000000000001) = canonicalNaN := by
  obtain ⟨hdouble, hword, hin, hout⟩ := codec_round_trip
  exact ⟨hdouble (-0) (by decide), hword 1 (by decide), hin notANumber (by decide),
    (hout 0xFFF0000000000001 (by decide)).2.2.2⟩

end FloatWord
