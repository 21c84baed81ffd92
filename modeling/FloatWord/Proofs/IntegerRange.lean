import FloatWord.Proofs.Encoding
import FloatWord.Proofs.FieldViews
import FloatWord.Proofs.Normalizing
import FloatWord.Proofs.Rescaling

/-!
# Proofs — IntegerRange — no integer step overflows or drops a bit

The exponents are 32-bit integers and the words 64-bit ones, and each function relies on what it is
handed.  A checked step gives the exact result or none (`Checked.add_eq_ok_iff` and the lemmas
beside it), and on checked steps encoding, decoding, scaling and splitting come to their ends all
the same, with the same results (`encodeVia_checked` and the lemmas beside it).  The rest of this
file says with which numbers, from one function to the next.

* `Split.hasRoom_afterSteps`: on the way to a split the fraction and the exponent stand for a
  double, so the exponent stays far from the ends of its range, after any number of steps.
* `Split.Stands.fits`: at the end the fraction is in `[0.5, 1)`, which leaves the exponent the
  range of the doubles (`Split.Stands.exponent_mem`).  There the packing has no digit to carry and
  neither cut to make, and shifts out zeros only (`Significand.Fits`).
* `Staging.fits`: laying out a scaling brings every exponent into the range of `exp2`.
* `decode_fits`: a word that is a number is scaled from an integer below `2 ^ 53`.

`integer_steps_fit` is all of this together.
-/

namespace FloatWord

variable {x : Float} {p q f : ℚ} {w : Word}

/-! ### Runs on integers that report an overflow -/

namespace Checked
variable {a b c k : Int32} {m w : UInt64}

theorem ite_eq_ok_iff {α : Type} {P : Prop} [Decidable P] {v u : α} {e : Overflow} :
    (if P then .ok v else .error e : Checked α) = .ok u ↔ P ∧ v = u := by
  split <;> simp [*]

/-- A checked sum is the exact one, and every exact sum that is a 32-bit integer is found; -/
theorem add_eq_ok_iff :
    IntegerSteps.add a b = (.ok c : Checked Int32) ↔ c.toInt = a.toInt + b.toInt := by
  refine ite_eq_ok_iff.trans ⟨fun ⟨h, hc⟩ => hc ▸ h, fun h => ?_⟩
  have hlo := c.le_toInt
  have hhi := c.toInt_lt
  have hfit := toInt_add_of_bounds (a := a) (b := b) (by omega) (by omega)
  exact ⟨hfit, Int32.toInt_inj.mp (hfit.trans h.symm)⟩

/-- so with the difference, -/
theorem sub_eq_ok_iff :
    IntegerSteps.sub a b = (.ok c : Checked Int32) ↔ c.toInt = a.toInt - b.toInt := by
  refine ite_eq_ok_iff.trans ⟨fun ⟨h, hc⟩ => hc ▸ h, fun h => ?_⟩
  have hlo := c.le_toInt
  have hhi := c.toInt_lt
  have hfit := toInt_sub_of_bounds (a := a) (b := b) (by omega) (by omega)
  exact ⟨hfit, Int32.toInt_inj.mp (hfit.trans h.symm)⟩

theorem toNat_toUInt64_toNatClampNeg (hk : 0 ≤ k.toInt) :
    (k.toNatClampNeg.toUInt64.toNat : ℤ) = k.toInt := by
  have hlt := k.toInt_lt
  have hword : k.toNatClampNeg.toUInt64.toNat = k.toNatClampNeg :=
    Significand.toNat_ofNat (by rw [← Int32.toNat_toInt]; omega)
  rw [hword, ← Int32.toNat_toInt, Int.toNat_of_nonneg hk]

/-- with a word without the places below, if these are places of a word, -/
theorem shift_eq_ok_iff :
    IntegerSteps.shift m k = (.ok w : Checked UInt64) ↔
      (0 ≤ k.toInt ∧ k.toInt < 64) ∧ w.toNat = m.toNat / 2 ^ k.toInt.toNat := by
  refine ite_eq_ok_iff.trans (and_congr_right fun ⟨hk, hk'⟩ => ?_)
  have hplaces := toNat_toUInt64_toNatClampNeg hk
  rw [eq_comm, ← UInt64.toNat_inj, UInt64.toNat_shiftRight, Nat.mod_eq_of_lt (by omega),
    Nat.shiftRight_eq_div_pow, ← Int.toNat_natCast k.toNatClampNeg.toUInt64.toNat, hplaces]

/-- and with an integer as a word. -/
theorem cast_eq_ok_iff :
    IntegerSteps.cast k = (.ok w : Checked UInt64) ↔ (w.toNat : ℤ) = k.toInt := by
  refine ite_eq_ok_iff.trans ⟨fun ⟨hk, hw⟩ => hw ▸ toNat_toUInt64_toNatClampNeg hk, fun h => ?_⟩
  have hk : 0 ≤ k.toInt := h ▸ Int.natCast_nonneg _
  have hword := toNat_toUInt64_toNatClampNeg hk
  exact ⟨hk, UInt64.toNat_inj.mp (by omega)⟩

end Checked

theorem encodeVia_checked (x : Float) : encodeVia times x = (.ok (encode x) : Checked Word) :=
  encodeVia_eq_encode mulExact_times x

theorem decodeVia_checked (w : Word) : decodeVia times w = (.ok (decode w) : Checked Float) :=
  decodeVia_eq mulExact_times w

theorem scaleVia_checked (x : Float) (n : Int32) :
    scaleVia times x n = (.ok (scale x n) : Checked Float) :=
  scaleVia_times x n

theorem ofFloatVia_checked (x : Float) :
    Split.ofFloatVia times x = (.ok (Split.ofFloat x) : Checked Split) :=
  ofFloatVia_eq_ofFloat mulExact_times x

/-! ### The exponent of a split -/

namespace Split
variable {s : Split}

/-- Every step of the table can be added to the exponent, and taken from it, within 32 bits. -/
def HasRoom (s : Split) : Prop :=
  ∀ t ∈ steps, (s.exponent + Int32.ofNat t.shift).toInt = s.exponent.toInt + t.shift ∧
    (s.exponent - Int32.ofNat t.shift).toInt = s.exponent.toInt - t.shift

theorem shift_le {t : Step} (ht : t ∈ steps) : t.shift ≤ 512 := by
  have hall : ∀ k ∈ [512, 256, 128, 64, 32, 16, 8, 4, 2, 1], k ≤ 512 := by decide
  obtain ⟨k, hk, rfl⟩ := List.mem_map.mp ht
  exact hall k hk

theorem Stands.hasRoom (h : s.Stands f q) (hq : Representable q) (hpos : 0 < q) : s.HasRoom := by
  intro t ht
  have hbounds := h.exponent_bounds hq hpos
  rw [toInt_add_ofNat hbounds (shift_le ht), toInt_sub_ofNat hbounds (shift_le ht), sub_neg_eq_add]
  exact ⟨rfl, rfl⟩

theorem hasRoom_afterSteps (hx : rational? x = some q) (hq : q ≠ 0) (k : ℕ) :
    ((lifted x).afterSteps k).HasRoom := by
  obtain ⟨g, hst⟩ := exists_stands_afterSteps hx hq k
  exact hst.hasRoom (representable_abs_iff.mpr ⟨x, hx⟩) (abs_pos.mpr hq)

/-- The exponent of a split is the one that the ten steps leave, and one more for the halving. -/
theorem exponent_ofFloat (hx : rational? x = some q) (hq : q ≠ 0) :
    (ofFloat x).exponent =
      ((lifted x).afterSteps 10).exponent + if 1 ≤ (lifted x).fraction then 1 else 0 := by
  rw [ofFloat_eq_afterSteps hx hq]
  show (if _ then (⟨_, _⟩ : Split) else _).exponent = _
  split
  · rfl
  · exact (Int32.add_zero _).symm

end Split

/-! ### The place of a significand -/

/-- A significand is placed whole: it has no digit to carry, its exponent is between the two cuts,
and no step to its word is out of range.  The places of a right shift hold zeros only, so shifted
back the word is the significand; and the exponent field has room for the exponent, over all the
bits below the implicit one. -/
structure Significand.Fits (t : Significand) : Prop where
  no_carry : ¬ mantissaMask ||| implicitBit < t.digits
  not_low : ¬ t.exponent < -1084
  not_high : ¬ 1024 < t.exponent
  checked : t.toWordVia = (.ok t.toWord : Checked Word)
  shift : t.exponent < -1021 →
    1 ≤ -1021 - t.exponent.toInt ∧ -1021 - t.exponent.toInt ≤ 52 ∧
      t.digits.toNat % 2 ^ (-1021 - t.exponent.toInt).toNat = 0 ∧
      t.toWord.toNat * 2 ^ (-1021 - t.exponent.toInt).toNat = t.digits.toNat
  field : ¬ t.exponent < -1021 →
    1 ≤ 1022 + t.exponent.toInt ∧ 1022 + t.exponent.toInt ≤ 2046 ∧
      t.toWord.toNat = (1022 + t.exponent.toInt).toNat * 2 ^ 52 + t.digits.toNat % 2 ^ 52

namespace Significand
variable {d : Digits} {m : ℕ} {e : Int32}

/-- Below the normal numbers, the significand of a double ends in the zeros that are shifted
out. -/
theorem mod_shift_of_subnormal (hm : m < 2 ^ 53) (he : e.toInt < -1021)
    (hd : d.value = m * 2 ^ (e.toInt - 53)) : m % 2 ^ (-1021 - e.toInt).toNat = 0 := by
  obtain ⟨k, hk⟩ : ∃ k : ℕ, -1021 - e.toInt = k := Int.eq_ofNat_of_zero_le (by omega)
  obtain ⟨-, hzeros⟩ := eq_shift_of_subnormal hm hk (by omega) hd
  rw [hk, Int.toNat_natCast, hzeros, Nat.mul_mod_left]

theorem fits_of_value (hm : m < 2 ^ 53) (he : -1073 ≤ e.toInt) (he' : e.toInt ≤ 1024)
    (hd : d.value = m * 2 ^ (e.toInt - 53)) : Fits ⟨UInt64.ofNat m, e⟩ := by
  have hdigits : (UInt64.ofNat m).toNat = m := toNat_ofNat (by omega)
  refine ⟨not_implicitBit_lt hm, ?_, ?_, toWordVia_eq _, fun hsub => ?_, fun hnormal => ?_⟩
  · rw [lt_neg_1084_iff]
    show ¬ e.toInt < -1084
    omega
  · rw [lt_1024_iff]
    show ¬ 1024 < e.toInt
    omega
  · have hlow : e.toInt < -1021 := lt_neg_1021_iff.mp hsub
    have hzeros := mod_shift_of_subnormal hm hlow hd
    have hplaces : 1 ≤ -1021 - e.toInt ∧ -1021 - e.toInt ≤ 52 := by omega
    have hback : (toWord ⟨UInt64.ofNat m, e⟩).toNat * 2 ^ (-1021 - e.toInt).toNat = m := by
      rw [toNat_toWord_of_low _ hlow, hdigits, Nat.div_mul_cancel (Nat.dvd_of_mod_eq_zero hzeros)]
    rw [hdigits]
    exact ⟨hplaces.1, hplaces.2, hzeros, hback⟩
  · have hlow : -1021 ≤ e.toInt := not_lt.mp (mt lt_neg_1021_iff.mpr hnormal)
    have hfield : 1 ≤ 1022 + e.toInt ∧ 1022 + e.toInt ≤ 2046 := by omega
    exact ⟨hfield.1, hfield.2, toNat_toWord_of_middle _ hlow he'⟩

end Significand

namespace Split
variable {s : Split}

/-- Packing the split of a number places its significand whole. -/
theorem Stands.fits (h : s.Stands f q) (hq : Representable q) (hf : 1 / 2 ≤ f) (hf' : f < 1) :
    rational? (s.fraction * two53) = some ((Id.run (s.significandVia times)).digits.toNat : ℚ) ∧
      (Id.run (s.significandVia times)).exponent = s.exponent ∧
      (Id.run (s.significandVia times)).Fits := by
  have hf₀ : 0 < f := by linarith
  have hq₀ : 0 < q := by
    rw [← h.value]
    positivity
  obtain ⟨hrep, -, -⟩ := h.scaled_bounds hf hf'
  obtain ⟨m, hm, -, hm', hv⟩ := significandVia_eq (mulExact_times (M := Id)) h hf hf'
  have hrun : Id.run (s.significandVia times) = ⟨UInt64.ofNat m, s.exponent⟩ := congrArg Id.run hm
  obtain ⟨he, he'⟩ := h.exponent_mem hq (by rwa [abs_of_pos hf₀]) (by rwa [abs_of_pos hf₀])
  obtain ⟨d, hd, -⟩ := representable_iff.mp hq
  rw [abs_of_pos hq₀, hv] at hd
  have hproduct : f * 2 ^ (53 : ℤ) = m := by
    refine mul_right_cancel₀ (b := (2 : ℚ) ^ (s.exponent.toInt - 53)) (by positivity) ?_
    rw [mul_zpow_mul_zpow, add_sub_cancel, h.value, hv]
  rw [hrun]
  refine ⟨?_, rfl, Significand.fits_of_value hm' he he' hd⟩
  rw [rational?_mul h.fraction rational?_two53 hrep, hproduct, Significand.toNat_ofNat (by omega)]

end Split

/-- Encoding packs a fraction in `[0.5, 1)` under an exponent of the doubles, and the significand
is placed whole. -/
theorem encode_fits (hx : rational? x = some p) (hp : p ≠ 0) :
    let s := Split.ofFloat (if copySign 1 x == -1 then -x else x)
    let t := Id.run (s.significandVia times)
    (∃ f, rational? s.fraction = some f ∧ 1 / 2 ≤ f ∧ f < 1) ∧
      -1073 ≤ s.exponent.toInt ∧ s.exponent.toInt ≤ 1024 ∧
      rational? (s.fraction * Split.two53) = some (t.digits.toNat : ℚ) ∧
      t.exponent = s.exponent ∧ t.Fits := by
  have hpos : 0 < |p| := abs_pos.mpr hp
  have hrep : Representable |p| := representable_abs_iff.mpr ⟨x, hx⟩
  rw [ite_copySign_one_beq]
  obtain ⟨f, hst, hf, hf'⟩ := Split.exists_stands_ofFloat (rational?_magnitude hx) hpos.ne'
  obtain ⟨he, he'⟩ := hst.exponent_mem hrep hf hf'
  rw [abs_of_pos (hst.pos hpos)] at hf hf'
  exact ⟨⟨f, hst.fraction, hf, hf'⟩, he, he', hst.fits hrep hf hf'⟩

/-! ### The exponent of a scaling -/

/-- Laying out a scaling stays within 32 bits, and what is left over is an exponent that `exp2`
takes, with its magnitude. -/
structure Staging.Fits (n : Int32) : Prop where
  checked : ofExponentVia n = (.ok (ofExponent n) : Checked Staging)
  le_rest : -1022 ≤ (ofExponent n).rest.toInt
  rest_le : (ofExponent n).rest.toInt ≤ 1023
  abs_rest : (ofExponent n).rest.abs.toNatClampNeg = (ofExponent n).rest.toInt.natAbs

theorem Staging.rest_mem (n : Int32) :
    -1022 ≤ (ofExponent n).rest.toInt ∧ (ofExponent n).rest.toInt ≤ 1023 := by
  rcases ofExponent_cases n with ⟨hn, hn', e⟩ | ⟨hn, hn', r, e, hr⟩ | ⟨hn, r, e, hr⟩ |
      ⟨hn, hn', r, e, hr⟩ | ⟨hn, r, e, hr⟩ <;>
    rw [e]
  · exact ⟨hn, hn'⟩
  all_goals
    show -1022 ≤ r.toInt ∧ r.toInt ≤ 1023
    omega

theorem Staging.fits (n : Int32) : Staging.Fits n := by
  obtain ⟨hle, hle'⟩ := rest_mem n
  exact ⟨ofExponentVia_eq n, hle, hle', toNatClampNeg_abs (by omega)⟩

/-! ### The fields of a word -/

/-- Reading the exponent off the fields stays within 32 bits, however wide they are, and joining
them moves all of the exponent field to its place, above the mantissa. -/
structure Fields.Fits (f : Fields) : Prop where
  checked : f.exponentVia? = (.ok f.exponent? : Checked (Option Int32))
  exponent : ∀ e, f.exponent? = some e → e.toInt = max f.biasedExponent.toNat 1 - 1075
  joined : f.toWord.toNat = (if f.negative then 2 ^ 63 else 0) +
    ((f.biasedExponent &&& maxBiasedExponent).toNat * 2 ^ 52 + (f.mantissa &&& mantissaMask).toNat)

theorem Fields.fits (f : Fields) : f.Fits where
  checked := exponentVia?_eq f
  exponent := fun _ => toInt_exponent?
  joined := by rw [toNat_toWord, toNat_and_maxBiasedExponent, toNat_and_mantissaMask]

/-- The exponent field of a word fits the 16 bits that it is read into. -/
theorem toUInt64_biasedExponent (w : Word) :
    (Fields.ofWord w).biasedExponent.toUInt64 =
      (w &&& exponentMask) >>> mantissaBits.toUInt64 := by
  have hplaces : mantissaBits.toUInt64.toNat % 64 = 52 := by decide
  refine UInt64.toNat_inj.mp ?_
  rw [UInt16.toNat_toUInt64, toNat_biasedExponent, UInt64.toNat_shiftRight, hplaces,
    toNat_and_exponentMask, Nat.shiftRight_eq_div_pow, Nat.mul_div_cancel _ (by positivity)]

/-- Decoding scales an integer below `2 ^ 53` by an exponent of the doubles. -/
theorem decode_fits {m : UInt64} {e : Int32}
    (hm : (Fields.ofWord (w &&& ~~~signMask)).significand? = some m)
    (he : (Fields.ofWord (w &&& ~~~signMask)).exponent? = some e) :
    decode w = copySign (scale m.toFloat e) (if w &&& signMask != 0 then -1 else 1) ∧
      rational? m.toFloat = some (m.toNat : ℚ) ∧ 1 ≤ m.toNat ∧ m.toNat < 2 ^ 53 ∧
      -1074 ≤ e.toInt ∧ e.toInt ≤ 971 := by
  obtain ⟨d, hword, hpos, hlt, hms, hes⟩ := exists_digits_of_significand? hm he
  rw [toNat_and_not_signMask, Nat.mod_mod] at hword
  obtain ⟨hne, hne'⟩ := and_not_signMask_ne (hword ▸ hpos.ne') (hword ▸ hlt.ne)
  have hzero := d.word_eq_zero_iff
  have hshort := d.significand_lt
  have hlow := d.le_exponent
  have hhigh := Digits.exponent_le hlt
  refine ⟨?_, rational?_toFloat (by omega), by omega, by omega, by omega, by omega⟩
  rw [decode_eq]
  simp only [hne, hne', if_false, hm, he]

/-- **No integer step overflows or drops a bit.**  A checked step gives the exact result or none,
and on checked steps every encoding, decoding, scaling and split comes to the same result.  Encoding a number packs a fraction
in `[0.5, 1)` under an exponent of the doubles, and its significand, found exactly, is placed whole.
Splitting a number has room for every step on the way.  Every scaling is laid out within 32 bits,
down to an exponent that `exp2` takes.  Decoding scales an integer below `2 ^ 53`, converted
exactly, by an exponent of the doubles.  And the fields of a word are read and joined without a
loss. -/
theorem integer_steps_fit :
    ((∀ a b c : Int32,
        (IntegerSteps.add a b = (.ok c : Checked Int32) ↔ c.toInt = a.toInt + b.toInt) ∧
        (IntegerSteps.sub a b = (.ok c : Checked Int32) ↔ c.toInt = a.toInt - b.toInt)) ∧
      ∀ (m w : UInt64) (k : Int32),
        (IntegerSteps.shift m k = (.ok w : Checked UInt64) ↔
          (0 ≤ k.toInt ∧ k.toInt < 64) ∧ w.toNat = m.toNat / 2 ^ k.toInt.toNat) ∧
        (IntegerSteps.cast k = (.ok w : Checked UInt64) ↔ (w.toNat : ℤ) = k.toInt)) ∧
    ((∀ x, encodeVia times x = (.ok (encode x) : Checked Word)) ∧
      (∀ w, decodeVia times w = (.ok (decode w) : Checked Float)) ∧
      (∀ x n, scaleVia times x n = (.ok (scale x n) : Checked Float)) ∧
      ∀ x, Split.ofFloatVia times x = (.ok (Split.ofFloat x) : Checked Split)) ∧
    (∀ x p, rational? x = some p → p ≠ 0 →
      let s := Split.ofFloat (if copySign 1 x == -1 then -x else x)
      let t := Id.run (s.significandVia times)
      encode x = s.pack (if copySign 1 x == -1 then signMask else 0) ∧
        (∀ sign, s.packChecked sign = .ok (s.pack sign)) ∧
        (∃ f, rational? s.fraction = some f ∧ 1 / 2 ≤ f ∧ f < 1) ∧
        -1073 ≤ s.exponent.toInt ∧ s.exponent.toInt ≤ 1024 ∧
        rational? (s.fraction * Split.two53) = some (t.digits.toNat : ℚ) ∧
        t.exponent = s.exponent ∧ t.Fits) ∧
    (∀ x p, rational? x = some p → p ≠ 0 →
      (∀ k, ((Split.lifted x).afterSteps k).HasRoom) ∧
        (Split.ofFloat x).exponent = ((Split.lifted x).afterSteps 10).exponent +
          if 1 ≤ (Split.lifted x).fraction then 1 else 0) ∧
    (∀ x n,
      scale x n =
          (Staging.ofExponent n).factors.foldl (· * ·) x * exp2 (Staging.ofExponent n).rest ∧
        Staging.Fits n) ∧
    (∀ (w : Word) (m : UInt64) (e : Int32),
      (Fields.ofWord (w &&& ~~~signMask)).significand? = some m →
      (Fields.ofWord (w &&& ~~~signMask)).exponent? = some e →
      decode w = copySign (scale m.toFloat e) (if w &&& signMask != 0 then -1 else 1) ∧
        rational? m.toFloat = some (m.toNat : ℚ) ∧ 1 ≤ m.toNat ∧ m.toNat < 2 ^ 53 ∧
        -1074 ≤ e.toInt ∧ e.toInt ≤ 971) ∧
    (∀ f : Fields, f.Fits) ∧
    ∀ w, (Fields.ofWord w).biasedExponent.toUInt64 =
      (w &&& exponentMask) >>> mantissaBits.toUInt64 := by
  refine ⟨⟨fun _ _ _ => ⟨Checked.add_eq_ok_iff, Checked.sub_eq_ok_iff⟩,
      fun _ _ _ => ⟨Checked.shift_eq_ok_iff, Checked.cast_eq_ok_iff⟩⟩,
    ⟨encodeVia_checked, decodeVia_checked, scaleVia_checked, ofFloatVia_checked⟩,
    fun x p hx hp => ?_, fun x p hx hp => ?_, fun x n => ?_, fun w m e hm he => ?_,
    Fields.fits, toUInt64_biasedExponent⟩
  · obtain ⟨hfraction, he, he', hproduct, hexp, hfits⟩ := encode_fits hx hp
    exact ⟨congrArg Id.run (encodeVia_of_ne_zero hx hp),
      Split.packVia_times fun h => hfits.no_carry h.1, hfraction, he, he', hproduct, hexp, hfits⟩
  · exact ⟨Split.hasRoom_afterSteps hx hp, Split.exponent_ofFloat hx hp⟩
  · exact ⟨scale_eq x n, Staging.fits n⟩
  · exact decode_fits hm he

/-- The smallest double, below zero, and the lowest exponent there is. -/
theorem integer_steps_fit_smallest :
    (Id.run ((Split.ofFloat (ofDigits false (.ofWord 1))).significandVia times)).Fits ∧
      ((Split.lifted (ofDigits true (.ofWord 1))).afterSteps 3).HasRoom ∧
      Staging.Fits (-2147483648) ∧
      decode 0x8000000000000001 = copySign (scale (1 : UInt64).toFloat (-1074)) (-1) := by
  obtain ⟨-, -, hencode, hsplit, hscale, hdecode, -⟩ := integer_steps_fit
  have hx : rational? (ofDigits true (.ofWord 1)) = some (signed true (Digits.ofWord 1).value) :=
    rational?_ofDigits (by decide)
  have hp : signed true (Digits.ofWord 1).value ≠ 0 := by
    rw [Ne, signed_eq_zero_iff, Digits.value_ofWord_one]
    positivity
  obtain ⟨-, -, -, -, -, -, -, hfits⟩ := hencode _ _ hx hp
  rw [ite_copySign_one_beq, magnitude_ofDigits] at hfits
  exact ⟨hfits, (hsplit _ _ hx hp).1 3, (hscale 1 (-2147483648)).2,
    (hdecode 0x8000000000000001 1 (-1074) (by decide) (by decide)).1⟩

end FloatWord
