import FloatWord.Codec
import FloatWord.Proofs.Scaling
import FloatWord.Proofs.Class

/-!
# Proofs — Decoding — the number that a word denotes

`decode` reads the fields of the word without its sign, scales the significand by the exponent,
and lends the result the sign.  The significand and the exponent of the fields are those of the
digits at that place (`exists_significand?`), and scaling the one by the other needs no rounding;
so the result is the double of the sign and the digits (`decodeVia_of_le`), and the number of the
fields (`decode_denotes`).
-/

namespace FloatWord

variable {w : Word}

/-! ### The fields of a word -/

theorem toNat_and_not_signMask (w : Word) : (w &&& ~~~signMask).toNat = w.toNat % 2 ^ 63 := by
  have hmask : (~~~signMask).toNat = 2 ^ 63 - 1 := by decide
  rw [UInt64.toNat_and, hmask, Nat.and_two_pow_sub_one_eq_mod]

/-- Apart from the zeros and the infinities, a word is decoded by its fields. -/
theorem and_not_signMask_ne (hzero : w.toNat % 2 ^ 63 ≠ 0)
    (htop : w.toNat % 2 ^ 63 ≠ infinityPlace) :
    w &&& ~~~signMask ≠ 0 ∧ w &&& ~~~signMask ≠ infinityWord := by
  have hu := toNat_and_not_signMask w
  constructor <;> intro e <;> rw [e] at hu
  · exact hzero hu.symm
  · exact htop hu.symm

theorem and_signMask_bne (w : Word) : (w &&& signMask != 0) = decide (2 ^ 63 ≤ w.toNat) := by
  have hw := w.toNat_lt
  have hmask : signMask.toNat = 2 ^ 63 := by decide
  have hzero : w &&& signMask = 0 ↔ w.toNat < 2 ^ 63 := by
    rw [← UInt64.toNat_inj, UInt64.toNat_and, hmask, Nat.and_two_pow,
      Nat.testBit_eq_decide_div_mod_eq, UInt64.toNat_zero]
    by_cases h : w.toNat / 2 ^ 63 % 2 = 1
    · rw [decide_eq_true h, Bool.toNat_true]
      omega
    · rw [decide_eq_false h, Bool.toNat_false]
      omega
  rw [bne, Bool.not_eq_eq_eq_not, ← decide_not, beq_eq_decide]
  simp only [hzero, not_le]

theorem toNat_and_exponentMask (w : Word) :
    (w &&& exponentMask).toNat = w.toNat / 2 ^ 52 % 2 ^ 11 * 2 ^ 52 := by
  have hshift : exponentMask.toNat >>> 52 = 2 ^ 11 - 1 := by decide
  have hmask : exponentMask.toNat % 2 ^ 52 = 0 := by decide
  -- the bits above the mantissa, and those of the mantissa
  have hdiv : (w &&& exponentMask).toNat / 2 ^ 52 = w.toNat / 2 ^ 52 % 2 ^ 11 := by
    rw [← Nat.shiftRight_eq_div_pow, UInt64.toNat_and, Nat.shiftRight_and_distrib, hshift,
      Nat.and_two_pow_sub_one_eq_mod, Nat.shiftRight_eq_div_pow]
  have hmod : (w &&& exponentMask).toNat % 2 ^ 52 = 0 := by
    rw [UInt64.toNat_and, Nat.and_mod_two_pow, hmask, Nat.and_zero]
  omega

theorem toNat_and_mantissaMask (w : Word) : (w &&& mantissaMask).toNat = w.toNat % 2 ^ 52 := by
  have hmask : mantissaMask.toNat = 2 ^ 52 - 1 := by decide
  rw [UInt64.toNat_and, hmask, Nat.and_two_pow_sub_one_eq_mod]

theorem toNat_biasedExponent (w : Word) :
    (Fields.ofWord w).biasedExponent.toNat = w.toNat / 2 ^ 52 % 2 ^ 11 := by
  have hplaces : mantissaBits.toUInt64.toNat % 64 = 52 := by decide
  show ((w &&& exponentMask) >>> mantissaBits.toUInt64).toUInt16.toNat = _
  rw [UInt64.toNat_toUInt16, UInt64.toNat_shiftRight, hplaces, toNat_and_exponentMask,
    Nat.shiftRight_eq_div_pow]
  omega

theorem toNat_mantissa (w : Word) : (Fields.ofWord w).mantissa.toNat = w.toNat % 2 ^ 52 :=
  toNat_and_mantissaMask w

/-- The fields of a word spell out the class of the place under the sign. -/
theorem floatClass_ofWord (w : Word) :
    (Fields.ofWord w).floatClass = .ofPlace (w.toNat % 2 ^ 63) := by
  have hmax : maxBiasedExponent.toNat = 2047 := by decide
  unfold FloatClass.ofPlace infinityPlace
  simp only [Fields.floatClass, ← UInt16.toNat_inj, ← UInt64.toNat_inj, toNat_biasedExponent,
    toNat_mantissa, hmax, UInt16.toNat_zero, UInt64.toNat_zero]
  split_ifs <;> first | rfl | omega

theorem floatClass_of_nan (h : infinityPlace < w.toNat % 2 ^ 63) :
    (Fields.ofWord w).floatClass = .nan := by
  have hnormal : ¬ w.toNat % 2 ^ 63 < 2 ^ 52 := by
    rw [infinityPlace] at h
    omega
  rw [floatClass_ofWord, FloatClass.ofPlace, if_neg hnormal, if_neg h.not_gt, if_neg h.ne']

theorem toNat_or_implicitBit {m : UInt64} (h : m.toNat < 2 ^ 52) :
    (m ||| implicitBit).toNat = 2 ^ 52 + m.toNat := by
  have hbit : implicitBit.toNat = 1 <<< 52 := by decide
  rw [UInt64.toNat_or, hbit, Nat.or_comm, ← Nat.shiftLeft_add_eq_or_of_lt h]
  rfl

theorem significand?_lt {m : UInt64} (h : (Fields.ofWord w).significand? = some m) :
    m.toNat < 2 ^ 53 := by
  have hmantissa := toNat_mantissa w
  rw [Fields.significand?] at h
  split at h
  · obtain rfl := Option.some.inj h
    omega
  · obtain rfl := Option.some.inj h
    rw [toNat_or_implicitBit (by omega)]
    omega
  · cases h

theorem toInt_biasedExponent (f : Fields) :
    (Int32.ofNat f.biasedExponent.toNat).toInt = f.biasedExponent.toNat := by
  have hlt := f.biasedExponent.toNat_lt
  exact Int32.toInt_ofNat_of_lt (by omega)

/-- From zero up there is room to take off the bias and the places of the mantissa. -/
theorem toInt_unbias {b : Int32} (hb : 0 ≤ b.toInt) :
    (b - exponentBias).toInt = b.toInt - exponentBias.toInt ∧
      (b - exponentBias - Int32.ofNat mantissaBits).toInt =
        (b - exponentBias).toInt - (Int32.ofNat mantissaBits).toInt := by
  have hbias : exponentBias.toInt = 1023 := rfl
  have hbits : (Int32.ofNat mantissaBits).toInt = 52 := rfl
  have hlt := b.toInt_lt
  have hsub := toInt_sub_of_bounds (a := b) (b := exponentBias) (by omega) (by omega)
  exact ⟨hsub, toInt_sub_of_bounds (by omega) (by omega)⟩

theorem toInt_unbiased (f : Fields) :
    (Int32.ofNat f.biasedExponent.toNat - exponentBias - Int32.ofNat mantissaBits).toInt =
      f.biasedExponent.toNat - 1075 := by
  have hbias : exponentBias.toInt = 1023 := rfl
  have hbits : (Int32.ofNat mantissaBits).toInt = 52 := rfl
  have hbiased := toInt_biasedExponent f
  obtain ⟨hsub, hsub'⟩ := toInt_unbias (b := Int32.ofNat f.biasedExponent.toNat) (by omega)
  omega

/-- What the fields have to be for each class. -/
theorem Fields.floatClass_eq_iff (f : Fields) (c : FloatClass) :
    f.floatClass = c ↔
      match c with
      | .zero => f.biasedExponent = 0 ∧ f.mantissa = 0
      | .subnormal => f.biasedExponent = 0 ∧ f.mantissa ≠ 0
      | .normal => f.biasedExponent ≠ 0 ∧ f.biasedExponent ≠ maxBiasedExponent
      | .infinite => f.biasedExponent = maxBiasedExponent ∧ f.mantissa = 0
      | .nan => f.biasedExponent = maxBiasedExponent ∧ f.mantissa ≠ 0 := by
  have hne : (0 : UInt16) ≠ maxBiasedExponent := by decide
  unfold Fields.floatClass
  cases c <;> split_ifs <;> simp [*, hne.symm]

/-- The exponent of the fields is the biased one without the bias and the places of the mantissa,
and for subnormal numbers that of 1. -/
theorem toInt_exponent? {f : Fields} {e : Int32} (h : f.exponent? = some e) :
    e.toInt = max f.biasedExponent.toNat 1 - 1075 := by
  rw [Fields.exponent?_eq] at h
  cases hclass : f.floatClass with
  | zero | infinite | nan => rw [hclass] at h; cases h
  | subnormal =>
      rw [hclass] at h
      obtain rfl := Option.some.inj h
      obtain ⟨hzero, -⟩ := (f.floatClass_eq_iff _).mp hclass
      rw [hzero]
      rfl
  | normal =>
      rw [hclass] at h
      obtain rfl := Option.some.inj h
      obtain ⟨hpos, -⟩ := (f.floatClass_eq_iff _).mp hclass
      have hne := mt UInt16.toNat_inj.mp hpos
      rw [toInt_unbiased, max_eq_left (Nat.one_le_iff_ne_zero.mpr hne)]

section Via
variable {M : Type → Type} [Monad M] [LawfulMonad M] [IntegerSteps M]

theorem unbiasVia_eq {b : Int32} (hb : 0 ≤ b.toInt) :
    Fields.unbiasVia b = (pure (b - exponentBias - Int32.ofNat mantissaBits) : M Int32) := by
  obtain ⟨hsub, hsub'⟩ := toInt_unbias hb
  rw [Fields.unbiasVia, IntegerSteps.sub_eq hsub, pure_bind, IntegerSteps.sub_eq hsub']

/-- The exponent comes off the fields without an overflow, however wide they are. -/
theorem exponentVia?_eq (f : Fields) : f.exponentVia? = (pure f.exponent? : M (Option Int32)) := by
  have hbiased : 0 ≤ (Int32.ofNat f.biasedExponent.toNat).toInt := by
    rw [toInt_biasedExponent]
    exact Int.natCast_nonneg _
  rw [Fields.exponent?_eq, Fields.exponentVia?]
  cases f.floatClass with
  | subnormal => simp only [unbiasVia_eq (b := 1) (by decide), pure_bind]
  | normal => simp only [unbiasVia_eq hbiased, pure_bind]
  | zero | infinite | nan => rfl

end Via

/-- The significand and the exponent of the fields are those of the digits at that place. -/
theorem exists_significand? (hpos : 0 < w.toNat % 2 ^ 63)
    (hlt : w.toNat % 2 ^ 63 < infinityPlace) :
    ∃ m e, (Fields.ofWord w).significand? = some m ∧ (Fields.ofWord w).exponent? = some e ∧
      m.toNat = (Digits.ofWord (w.toNat % 2 ^ 63)).significand ∧
      e.toInt = (Digits.ofWord (w.toNat % 2 ^ 63)).exponent := by
  have hclass := floatClass_ofWord w
  rw [FloatClass.ofPlace] at hclass
  rcases lt_or_ge (w.toNat % 2 ^ 63) (2 ^ 52) with hsub | hnormal
  · rw [if_pos hsub, if_neg hpos.ne'] at hclass
    obtain ⟨hs, he⟩ := Digits.ofWord_of_lt hsub
    refine ⟨_, _, by rw [Fields.significand?, hclass], by rw [Fields.exponent?_eq, hclass], ?_, ?_⟩
    · rw [toNat_mantissa, hs]
      omega
    · rw [he]
      decide
  · rw [if_neg (not_lt.mpr hnormal), if_pos hlt] at hclass
    obtain ⟨hs, he⟩ := Digits.ofWord_of_le hnormal
    have hexp := toNat_biasedExponent w
    have hfit : w.toNat / 2 ^ 52 % 2 ^ 11 = w.toNat % 2 ^ 63 / 2 ^ 52 := by omega
    refine ⟨_, _, by rw [Fields.significand?, hclass], by rw [Fields.exponent?_eq, hclass], ?_, ?_⟩
    · rw [toNat_or_implicitBit (by rw [toNat_mantissa]; omega), toNat_mantissa, hs]
      omega
    · rw [toInt_unbiased, he]
      omega

/-- Only a place below the infinities, and not zero, has a significand. -/
theorem place_of_significand? {m : UInt64} (h : (Fields.ofWord w).significand? = some m) :
    0 < w.toNat % 2 ^ 63 ∧ w.toNat % 2 ^ 63 < infinityPlace := by
  have htop : 2 ^ 52 < infinityPlace := by decide
  rw [Fields.significand?, floatClass_ofWord, FloatClass.ofPlace] at h
  split_ifs at h <;> omega

/-- What the fields give is the significand and the exponent of the digits at the place. -/
theorem exists_digits_of_significand? {m : UInt64} {e : Int32}
    (hm : (Fields.ofWord w).significand? = some m) (he : (Fields.ofWord w).exponent? = some e) :
    ∃ d : Digits, d.word = w.toNat % 2 ^ 63 ∧ 0 < d.word ∧ d.word < infinityPlace ∧
      m.toNat = d.significand ∧ e.toInt = d.exponent := by
  obtain ⟨hpos, hlt⟩ := place_of_significand? hm
  obtain ⟨m', e', hm', he', hms, hes⟩ := exists_significand? hpos hlt
  obtain rfl : m' = m := Option.some.inj (hm'.symm.trans hm)
  obtain rfl : e' = e := Option.some.inj (he'.symm.trans he)
  have hword : (Digits.ofWord (w.toNat % 2 ^ 63)).word = w.toNat % 2 ^ 63 := Digits.word_ofWord _
  exact ⟨_, hword, by rwa [hword], by rwa [hword], hms, hes⟩

/-! ### Decoding -/

section Via
variable {M : Type → Type} [Monad M] [LawfulMonad M] [IntegerSteps M]
variable {mul : Float → Float → M Float}

theorem decodeVia_of_nan (h : infinityPlace < w.toNat % 2 ^ 63) :
    decodeVia mul w = pure notANumber := by
  have hu := toNat_and_not_signMask w
  obtain ⟨hw, hw'⟩ := and_not_signMask_ne (Nat.ne_zero_of_lt h) h.ne'
  have hclass := floatClass_of_nan (w := w &&& ~~~signMask) (by rwa [hu, Nat.mod_mod])
  simp only [decodeVia, hw, hw', if_false, exponentVia?_eq, pure_bind, Fields.significand?, hclass]

theorem isNegative_sign (negative : Bool) :
    isNegative (if negative then (-1 : Float) else 1) = negative := by
  cases negative <;> decide

/-- The significand of some digits, scaled by their exponent, is the double of the digits. -/
theorem scaleVia_digits (hm : MulExact mul) {d : Digits} (hpos : 0 < d.word)
    (hlt : d.word < infinityPlace) {m : UInt64} {e : Int32} (hms : m.toNat = d.significand)
    (hes : e.toInt = d.exponent) : scaleVia mul m.toFloat e = pure (ofDigits false d) := by
  have hsig : 1 ≤ d.significand := Nat.one_le_iff_ne_zero.mpr (mt d.word_eq_zero_iff.mpr hpos.ne')
  have hlow := d.le_exponent
  have hhigh := Digits.exponent_le hlt
  have hint := rational?_toFloat (n := m) (by rw [hms]; exact d.significand_lt.le)
  rw [hms] at hint
  have hvalue : (d.significand : ℚ) * 2 ^ e.toInt = d.value := by rw [hes, Digits.value]
  have hdouble : rational? (ofDigits false d) = some d.value := rational?_ofDigits hlt
  obtain ⟨y, hy, hv⟩ := scaleVia_eq hm (n := e) hint (by exact_mod_cast hsig) (by omega) (by omega)
    (by rw [hvalue]; exact ⟨_, hdouble⟩)
  rw [hvalue] at hv
  rw [hy, eq_of_rational?_of_ne_zero hv hdouble (d.value_pos_iff.mpr hpos).ne']

/-- Up to `infinityPlace` a word is decoded to the double of its sign and digits. -/
theorem decodeVia_of_le (hm : MulExact mul) (h : w.toNat % 2 ^ 63 ≤ infinityPlace) :
    decodeVia mul w =
      pure (ofDigits (decide (2 ^ 63 ≤ w.toNat)) (.ofWord (w.toNat % 2 ^ 63))) := by
  have hu := toNat_and_not_signMask w
  have hsign := isNegative_sign (decide (2 ^ 63 ≤ w.toNat))
  rw [decodeVia, and_signMask_bne]
  rcases Nat.eq_zero_or_pos (w.toNat % 2 ^ 63) with hzero | hpos
  · have hw : w &&& ~~~signMask = 0 := UInt64.toNat_inj.mp (hu.trans hzero)
    have hdigits : (0 : Float) = ofDigits false (.ofWord 0) := by decide
    simp only [hw, if_true]
    rw [hdigits, copySign_ofDigits, hsign, hzero]
  rcases h.eq_or_lt with htop | hlt
  · have hw : w &&& ~~~signMask = infinityWord := UInt64.toNat_inj.mp (hu.trans htop)
    have hne : infinityWord ≠ 0 := by decide
    have hdigits : infinity = ofDigits false (.ofWord infinityPlace) := by
      rw [ofDigits_of_le (Digits.word_ofWord _).ge]
      rfl
    simp only [hw, hne, if_false, if_true]
    rw [hdigits, copySign_ofDigits, hsign, htop]
  obtain ⟨hw, hw'⟩ := and_not_signMask_ne hpos.ne' hlt.ne
  have hplace : (w &&& ~~~signMask).toNat % 2 ^ 63 = w.toNat % 2 ^ 63 := by rw [hu, Nat.mod_mod]
  simp only [hw, hw', if_false, exponentVia?_eq, pure_bind]
  rw [← hplace] at hpos hlt ⊢
  obtain ⟨m, e, hm', he', hms, hes⟩ := exists_significand? hpos hlt
  have hscale := scaleVia_digits hm (by rwa [Digits.word_ofWord]) (by rwa [Digits.word_ofWord])
    hms hes
  simp only [hm', he', hscale, pure_bind]
  rw [copySign_ofDigits, hsign]

end Via

theorem decode_of_le (h : w.toNat % 2 ^ 63 ≤ infinityPlace) :
    decode w = ofDigits (decide (2 ^ 63 ≤ w.toNat)) (.ofWord (w.toNat % 2 ^ 63)) :=
  congrArg Id.run (decodeVia_of_le mulExact_times h)

theorem decode_of_nan (h : infinityPlace < w.toNat % 2 ^ 63) : decode w = notANumber := by
  rw [decode, decodeVia_of_nan h]
  rfl

/-- A multiplication that is exact where it can be decodes every word like the machine's. -/
theorem decodeVia_eq {M : Type → Type} [Monad M] [LawfulMonad M] [IntegerSteps M]
    {mul : Float → Float → M Float} (hm : MulExact mul) (w : Word) :
    decodeVia mul w = pure (decode w) := by
  rcases le_or_gt (w.toNat % 2 ^ 63) infinityPlace with h | h
  · rw [decodeVia_of_le hm h, decode_of_le h]
  · rw [decodeVia_of_nan h, decode_of_nan h]

theorem signed_bit (w : Word) (q : ℚ) :
    signed (decide (2 ^ 63 ≤ w.toNat)) q = (-1) ^ (w.toNat / 2 ^ 63) * q := by
  have hw := w.toNat_lt
  by_cases h : 2 ^ 63 ≤ w.toNat
  · rw [decide_eq_true h, show w.toNat / 2 ^ 63 = 1 by omega, pow_one, neg_one_mul]
    rfl
  · rw [decide_eq_false h, show w.toNat / 2 ^ 63 = 0 by omega, pow_zero, one_mul]
    rfl

/-- **A word denotes the number of its fields, exactly.**  With `s` the sign bit, `e` the exponent
field and `m` the mantissa field, the double of the word is what the binary64 format says, and
every product on the way is one that needs no rounding. -/
theorem decode_denotes (w : Word) :
    let s : ℕ := w.toNat / 2 ^ 63
    let e : ℕ := w.toNat / 2 ^ 52 % 2 ^ 11
    let m : ℕ := w.toNat % 2 ^ 52
    (e = 2047 → m ≠ 0 → (decode w).isNaN = true) ∧
    (e = 2047 → m = 0 → decode w = if s = 1 then -infinity else infinity) ∧
    (e = 0 → m = 0 → decode w = if s = 1 then -0 else 0) ∧
    (e = 0 → m ≠ 0 → rational? (decode w) = some ((-1 : ℚ) ^ s * (m * 2 ^ (-1074 : ℤ)))) ∧
    (0 < e → e < 2047 →
      rational? (decode w) = some ((-1 : ℚ) ^ s * ((2 ^ 52 + m) * 2 ^ (e - 1075 : ℤ)))) ∧
    decodeVia checkedTimes w = some (decode w) := by
  intro s e m
  have hw := w.toNat_lt
  have hplace : w.toNat % 2 ^ 63 = e * 2 ^ 52 + m := by omega
  have hbit : s = 1 ↔ 2 ^ 63 ≤ w.toNat := by omega
  have htop : infinityPlace = 2047 * 2 ^ 52 := rfl
  refine ⟨fun he hm => ?_, fun he hm => ?_, fun he hm => ?_, fun he hm => ?_, fun he he' => ?_,
    decodeVia_eq mulExact_checkedTimes w⟩
  · rw [decode_of_nan (by omega)]
    decide
  · rw [decode_of_le (by omega), ofDigits_of_le (by rw [Digits.word_ofWord]; omega)]
    simp only [decide_eq_true_eq, hbit]
  · rw [decode_of_le (by omega), ofDigits_of_word_eq_zero (by rw [Digits.word_ofWord]; omega)]
    simp only [decide_eq_true_eq, hbit]
  · obtain ⟨hs, he₀⟩ := Digits.ofWord_of_lt (k := w.toNat % 2 ^ 63) (by omega)
    rw [decode_of_le (by omega), rational?_ofDigits (by rw [Digits.word_ofWord]; omega), signed_bit,
      Digits.value, hs, he₀, show w.toNat % 2 ^ 63 = m by omega]
  · obtain ⟨hs, he₀⟩ := Digits.ofWord_of_le (k := w.toNat % 2 ^ 63) (by omega)
    rw [decode_of_le (by omega), rational?_ofDigits (by rw [Digits.word_ofWord]; omega), signed_bit,
      Digits.value, hs, he₀, show w.toNat % 2 ^ 63 % 2 ^ 52 = m by omega,
      show w.toNat % 2 ^ 63 / 2 ^ 52 = e by omega]
    push_cast
    rfl

theorem decode_denotes_edges :
    (decode 0x7FF0000000000001).isNaN = true ∧ decode 0xFFF0000000000000 = -infinity ∧
      decode 0x8000000000000000 = -0 ∧ rational? (decode 1) = some (2 ^ (-1074 : ℤ)) ∧
      rational? (decode 0x4008000000000000) = some 3 := by
  obtain ⟨hnan, -⟩ := decode_denotes 0x7FF0000000000001
  obtain ⟨-, hinf, -⟩ := decode_denotes 0xFFF0000000000000
  obtain ⟨-, -, hzero, -⟩ := decode_denotes 0x8000000000000000
  obtain ⟨-, -, -, hsub, -⟩ := decode_denotes 1
  obtain ⟨-, -, -, -, hnormal, -⟩ := decode_denotes 0x4008000000000000
  refine ⟨hnan (by decide) (by decide), hinf (by decide) (by decide),
    hzero (by decide) (by decide), ?_, ?_⟩
  · rw [hsub (by decide) (by decide)]
    simp
  · have hsign : (0x4008000000000000 : Word).toNat / 2 ^ 63 = 0 := by decide
    have hexp : ((0x4008000000000000 : Word).toNat / 2 ^ 52 % 2 ^ 11 : ℕ) - (1075 : ℤ) = -51 := by
      decide
    have hmant : (0x4008000000000000 : Word).toNat % 2 ^ 52 = 2 ^ 51 := by decide
    rw [hnormal (by decide) (by decide), hsign, hexp, hmant]
    norm_num

end FloatWord
