import FloatWord.Codec
import FloatWord.Proofs.Packing

/-!
# Proofs — Encoding — the word of a double, rebuilt from its number

`encode` never looks at the host's word.  It finds the sign, the class, the split and the place,
each by arithmetic, and the earlier modules say what each of these is.  Put together, the word
that it builds is the host's (`encodeVia_eq`), whatever the multiplication does where it has to
round; and so it is the binary64 layout of the number (`encode_layout`).
-/

namespace FloatWord

variable {x : Float} {p : ℚ} {s : Bool}

/-- The word of a sign. -/
def signWord (negative : Bool) : Word := if negative then signMask else 0

/-- The sign stands above the place of the digits. -/
theorem toBits_ofDigits {d : Digits} (h : d.word ≤ infinityPlace) (s : Bool) :
    (ofDigits s d).toBits = signWord s ||| UInt64.ofNat d.word := by
  have hplace : d.word < 2 ^ 63 := by
    rw [infinityPlace] at h
    omega
  refine UInt64.toNat_inj.mp ?_
  rw [toNat_toBits_ofDigits, min_eq_left h, UInt64.toNat_or, Significand.toNat_ofNat (by omega)]
  cases s
  · exact (Nat.zero_add _).trans (Nat.zero_or _).symm
  · have hsign : (signWord true).toNat = 1 <<< 63 := by decide
    rw [hsign, ← Nat.shiftLeft_add_eq_or_of_lt hplace]
    rfl

section Via
variable {M : Type → Type} [Monad M] [IntegerSteps M] {mul : Float → Float → M Float}

/-- Normal or subnormal, a number is split without its sign and packed under it. -/
theorem encodeVia_of_ne_zero (hx : rational? x = some p) (hp : p ≠ 0) :
    encodeVia mul x = (do
      let t ← Split.ofFloatVia mul (if copySign 1 x == -1 then -x else x)
      Split.packVia mul (if copySign 1 x == -1 then signMask else 0) t) := by
  rw [encodeVia, ofFloat_of_rational? hx, if_neg hp]
  by_cases hsub : |p| < 2 ^ (-1022 : ℤ)
  · rw [if_pos hsub]
  · rw [if_neg hsub]

variable [LawfulMonad M]

/-- The magnitude of a nonzero number is split and packed into the place of its digits. -/
theorem ofFloatVia_packVia_eq (hm : MulExact mul) {d : Digits} (hpos : 0 < d.word)
    (hlt : d.word < infinityPlace) (sign : Word) :
    (do
      let t ← Split.ofFloatVia mul (ofDigits false d)
      Split.packVia mul sign t) = pure (sign ||| UInt64.ofNat d.word) := by
  have hval : 0 < d.value := d.value_pos_iff.mpr hpos
  have hx : rational? (ofDigits false d) = some d.value := rational?_ofDigits hlt
  obtain ⟨t, f, ht, hst, hf, hf'⟩ := Split.ofFloatVia_eq hm hx hval.ne'
  rw [abs_of_pos (hst.pos hval)] at hf hf'
  rw [ht, pure_bind, Split.packVia_eq hm hlt hst hf hf']

/-- The word of a double is the host's, and no product is rounded for it. -/
theorem encodeVia_eq (hm : MulExact mul) (hx : x.isNaN = false) :
    encodeVia mul x = pure x.toBits := by
  obtain ⟨s, d, hle, rfl⟩ := exists_eq_ofDigits hx
  have hsign : (if (copySign 1 (ofDigits s d) == -1) = true then signMask else 0) = signWord s := by
    rw [copySign_one_beq, isNegative_ofDigits]
    rfl
  rw [toBits_ofDigits hle]
  rcases hle.eq_or_lt with htop | hlt
  · have hclass := ofFloat_of_isInf (x := ofDigits s d)
      (by rw [isInf_ofDigits, htop, decide_eq_true le_rfl])
    have hword : UInt64.ofNat infinityPlace = infinityWord := by decide
    rw [encodeVia, hsign, hclass, htop, hword]
  have hx := rational?_ofDigits (s := s) hlt
  rcases Nat.eq_zero_or_pos d.word with hzero | hpos
  · have hval : d.value = 0 := d.value_eq_zero_iff.mpr (d.word_eq_zero_iff.mp hzero)
    rw [encodeVia, hsign, ofFloat_of_rational? hx, if_pos ((signed_eq_zero_iff s _).mpr hval),
      hzero]
    show pure (signWord s) = pure (signWord s ||| 0)
    rw [UInt64.or_zero]
  · have hval : 0 < d.value := d.value_pos_iff.mpr hpos
    rw [encodeVia_of_ne_zero hx (mt (signed_eq_zero_iff s _).mp hval.ne'), hsign,
      ite_copySign_one_beq, magnitude_ofDigits]
    exact ofFloatVia_packVia_eq hm hpos hlt (signWord s)

end Via

theorem encode_eq_toBits (hx : x.isNaN = false) : encode x = x.toBits :=
  congrArg Id.run (encodeVia_eq mulExact_times hx)

theorem encode_notANumber : encode notANumber = canonicalNaN := by
  rw [encode_eq, ofFloat_notANumber]

/-- A multiplication that is exact where it can be encodes every double like the machine's. -/
theorem encodeVia_eq_encode {M : Type → Type} [Monad M] [LawfulMonad M] [IntegerSteps M]
    {mul : Float → Float → M Float} (hm : MulExact mul) (x : Float) :
    encodeVia mul x = pure (encode x) := by
  cases hx : x.isNaN with
  | false => rw [encodeVia_eq hm hx, encode_eq_toBits hx]
  | true => rw [eq_notANumber hx, encode_notANumber, encodeVia, ofFloat_notANumber]

/-- The word of the digits of a number, as an integer. -/
theorem toNat_encode {d : Digits} (hx : rational? x = some p) (hp : p ≠ 0) (hd : |p| = d.value) :
    (encode x).toNat = (if p < 0 then 2 ^ 63 else 0) + d.word := by
  have hlt : d.word < infinityPlace := by
    rw [d.word_lt_infinityPlace_iff, ← hd]
    exact Representable.abs_lt ⟨x, hx⟩
  have hbits := toNat_toBits_ofDigits (isNegative x) d
  rw [← eq_ofDigits_of_abs_eq hx hd, min_eq_left hlt.le, isNegative_of_ne_zero hx hp] at hbits
  rw [encode_eq_toBits (isNaN_of_rational? hx), hbits]
  simp only [decide_eq_true_eq]

/-- A finite double other than zero is normal or subnormal. -/
theorem exists_abs_eq (hx : rational? x = some p) (hp : p ≠ 0) :
    ∃ (m : ℕ) (e : ℤ), |p| = m * 2 ^ e ∧
      (2 ^ 52 ≤ m ∧ m < 2 ^ 53 ∧ -1074 ≤ e ∧ e ≤ 971 ∨ 0 < m ∧ m < 2 ^ 52 ∧ e = -1074) := by
  obtain ⟨s, d, hlt, rfl, rfl⟩ := exists_ofDigits_of_rational? hx
  have hsig : d.significand ≠ 0 := fun h => hp (by
    rw [(Digits.value_eq_zero_iff d).mpr h, signed_zero])
  refine ⟨d.significand, d.exponent, ?_, ?_⟩
  · rw [abs_signed, abs_of_nonneg d.value_nonneg, Digits.value]
  · have hshort := d.significand_lt
    have hlow := d.le_exponent
    have hhigh := Digits.exponent_le hlt
    have hnormal := d.normal
    omega

/-- **The encoding is the binary64 layout.**  A finite double other than zero has a significand
and an exponent in form, and these are the fields of its word, in either form; the zeros and the
infinities have their own words, and every double but NaN has the word that the host stores. -/
theorem encode_layout :
    (∀ x p, rational? x = some p → p ≠ 0 →
      (∃ (m : ℕ) (e : ℤ), |p| = m * 2 ^ e ∧
        (2 ^ 52 ≤ m ∧ m < 2 ^ 53 ∧ -1074 ≤ e ∧ e ≤ 971 ∨ 0 < m ∧ m < 2 ^ 52 ∧ e = -1074)) ∧
      ∀ (m : ℕ) (e : ℤ), |p| = m * 2 ^ e →
        (2 ^ 52 ≤ m → m < 2 ^ 53 → -1074 ≤ e → e ≤ 971 →
          ((encode x).toNat : ℤ) =
            (if p < 0 then 2 ^ 63 else 0) + (e + 1075) * 2 ^ 52 + (m - 2 ^ 52)) ∧
        (0 < m → m < 2 ^ 52 → e = -1074 →
          (encode x).toNat = (if p < 0 then 2 ^ 63 else 0) + m)) ∧
    encode 0 = 0 ∧ encode (-0) = signMask ∧
    encode infinity = infinityWord ∧ encode (-infinity) = signMask ||| infinityWord ∧
    ∀ x : Float, x.isNaN = false → encode x = x.toBits := by
  refine ⟨fun x p hx hp => ⟨?_, fun m e hme => ⟨fun hm hm' he he' => ?_, fun hm hm' he => ?_⟩⟩,
    ?_, ?_, ?_, ?_, fun x => encode_eq_toBits⟩
  · exact exists_abs_eq hx hp
  · let d : Digits := ⟨m, e, hm', he, .inl hm⟩
    have hword : d.word = (e + 1074).toNat * 2 ^ 52 + m := rfl
    rw [toNat_encode hx hp (d := d) hme, hword]
    split <;> push_cast <;> omega
  · let d : Digits := ⟨m, e, by omega, by omega, .inr he⟩
    have hword : d.word = m := by
      show (e + 1074).toNat * 2 ^ 52 + m = m
      rw [he, neg_add_cancel, Int.toNat_zero, Nat.zero_mul, Nat.zero_add]
    rw [toNat_encode hx hp (d := d) hme, hword]
  · rw [encode_eq_toBits (by decide)]
    decide
  · rw [encode_eq_toBits (by decide)]
    decide
  · rw [encode_eq_toBits (by decide)]
    decide
  · rw [encode_eq_toBits (by decide)]
    decide

theorem encode_layout_edges :
    (encode 1).toNat = 1023 * 2 ^ 52 ∧ (encode (twoPowNeg 1074)).toNat = 1 ∧
      encode 2 = (2 : Float).toBits := by
  obtain ⟨hfin, -, -, -, -, hbits⟩ := encode_layout
  have hone : |(1 : ℚ)| = (2 ^ 52 : ℕ) * 2 ^ (-52 : ℤ) := by
    rw [abs_one, Nat.cast_pow, Nat.cast_ofNat, ← zpow_natCast, ← zpow_add₀ two_ne_zero]
    rfl
  have hpos : (0 : ℚ) < 2 ^ (-1074 : ℤ) := by positivity
  have hleast : |(2 : ℚ) ^ (-1074 : ℤ)| = (1 : ℕ) * 2 ^ (-1074 : ℤ) := by
    rw [abs_of_pos hpos, Nat.cast_one, one_mul]
  have hnormal := ((hfin 1 1 rational?_one one_ne_zero).2 (2 ^ 52) (-52) hone).1 le_rfl
    (by decide) (by decide) (by decide)
  have hx : rational? (twoPowNeg 1074) = some (2 ^ (-1074 : ℤ)) := rational?_twoPowNeg le_rfl
  have hsub := ((hfin _ _ hx hpos.ne').2 1 (-1074) hleast).2 (by decide) (by decide) rfl
  rw [if_neg (by decide)] at hnormal
  rw [if_neg hpos.not_gt] at hsub
  exact ⟨by omega, hsub, hbits 2 (by decide)⟩

end FloatWord
