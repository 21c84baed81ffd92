import FloatWord.Packing
import FloatWord.Proofs.Rounding
import FloatWord.Proofs.Splitting

/-!
# Proofs — Packing — the word that a split is packed into

The integer steps of packing are in range, all but one: a significand with a digit to carry under
the highest exponent has no next exponent (`Significand.Wraps`).  So packing on integers that report
an overflow gives the same word, or reports that addition (`Split.packChecked_eq`).

A fraction in `[0.5, 1)` is a significand of 53 binary places, so `2 ^ 53` times the fraction is
an integer, and neither the rounding nor the conversion changes it (`significandVia_eq`).  The
placement drops the bits that do not fit below the normal numbers (`toNat_toWord_of_low`).  Where
the split stands for the number of some digits, it drops none and finds their place: the
significand is the one of the digits itself, or, among the subnormal numbers, that one shifted left
(`packVia_eq`).
-/

namespace FloatWord

variable {x : Float} {q : ℚ}

namespace Significand

/-! ### Digits and exponents as integers -/

theorem toNat_ofNat {n : ℕ} (hn : n < 2 ^ 64) : (UInt64.ofNat n).toNat = n :=
  UInt64.toNat_ofNat_of_lt' hn

/-- The carry tells significands of more than 53 digits from the others. -/
theorem implicitBit_lt_iff (m : UInt64) :
    mantissaMask ||| implicitBit < m ↔ 2 ^ 53 ≤ m.toNat := by
  have hmask : (mantissaMask ||| implicitBit).toNat = 2 ^ 53 - 1 := by decide
  rw [UInt64.lt_iff_toNat_lt, hmask]
  omega

theorem not_implicitBit_lt {n : ℕ} (hn : n < 2 ^ 53) :
    ¬ mantissaMask ||| implicitBit < UInt64.ofNat n := by
  rw [implicitBit_lt_iff, toNat_ofNat (by omega)]
  omega

theorem toNat_shiftRight_one (m : UInt64) : (m >>> 1).toNat = m.toNat / 2 := by
  rw [UInt64.toNat_shiftRight, show (1 : UInt64).toNat % 64 = 1 from rfl,
    Nat.shiftRight_eq_div_pow, pow_one]

/-- An exponent below the highest one has a next one. -/
theorem toInt_add_one {e : Int32} (he : e ≠ Int32.maxValue) : (e + 1).toInt = e.toInt + 1 := by
  have hne : e.toInt ≠ 2 ^ 31 - 1 := fun h => he (Int32.toInt_inj.mp h)
  have hlt := e.toInt_lt
  have hle := e.le_toInt
  have hone : (1 : Int32).toInt = 1 := rfl
  rw [toInt_add_of_bounds (by omega) (by omega), hone]

theorem lt_neg_1084_iff {e : Int32} : e < -1084 ↔ e.toInt < -1084 := Int32.lt_iff_toInt_lt

theorem lt_neg_1021_iff {e : Int32} : e < -1021 ↔ e.toInt < -1021 := Int32.lt_iff_toInt_lt

theorem lt_1024_iff {e : Int32} : 1024 < e ↔ 1024 < e.toInt := Int32.lt_iff_toInt_lt

theorem toInt_neg_1021_sub {e : Int32} (he : e.toInt < -1021) :
    (-1021 - e).toInt = -1021 - e.toInt := by
  have h1021 : (-1021 : Int32).toInt = -1021 := rfl
  have hlo := e.le_toInt
  rw [toInt_sub_of_bounds (by omega) (by omega), h1021]

theorem toInt_1022_add {e : Int32} (he : e.toInt ≤ 1024) : (1022 + e).toInt = 1022 + e.toInt := by
  have h1022 : (1022 : Int32).toInt = 1022 := rfl
  have hlo := e.le_toInt
  rw [toInt_add_of_bounds (by omega) (by omega), h1022]

theorem toNatClampNeg_neg_1021_sub {e : Int32} (he : e.toInt < -1021) :
    (-1021 - e).toNatClampNeg = (-1021 - e.toInt).toNat := by
  rw [← Int32.toNat_toInt, toInt_neg_1021_sub he]

theorem toNatClampNeg_1022_add {e : Int32} (he : e.toInt ≤ 1024) :
    (1022 + e).toNatClampNeg = (1022 + e.toInt).toNat := by
  rw [← Int32.toNat_toInt, toInt_1022_add he]

/-! ### The integer steps -/

section Steps
variable {M : Type → Type} [Monad M] [IntegerSteps M] {t : Significand}

/-- The carry has no next exponent to go to. -/
def Wraps (t : Significand) : Prop :=
  mantissaMask ||| implicitBit < t.digits ∧ t.exponent = Int32.maxValue

instance : DecidablePred Wraps := fun _ => inferInstanceAs (Decidable (_ ∧ _))

theorem carry_eq (t : Significand) :
    t.carry =
      if mantissaMask ||| implicitBit < t.digits then ⟨t.digits >>> 1, t.exponent + 1⟩ else t := by
  rw [carry, carryVia]
  split <;> rfl

theorem not_wraps_ofNat {n : ℕ} (hn : n < 2 ^ 53) (e : Int32) : ¬ Wraps ⟨UInt64.ofNat n, e⟩ :=
  fun h => not_implicitBit_lt hn h.1

theorem carryVia_eq_self {n : ℕ} (hn : n < 2 ^ 53) (e : Int32) :
    carryVia ⟨UInt64.ofNat n, e⟩ = (pure ⟨UInt64.ofNat n, e⟩ : M Significand) :=
  if_neg (not_implicitBit_lt hn)

theorem carry_eq_self {n : ℕ} (hn : n < 2 ^ 53) (e : Int32) :
    carry ⟨UInt64.ofNat n, e⟩ = ⟨UInt64.ofNat n, e⟩ :=
  congrArg Id.run (carryVia_eq_self hn e)

variable [LawfulMonad M]

theorem carryVia_eq (ht : ¬ t.Wraps) : t.carryVia = (pure t.carry : M Significand) := by
  rw [carryVia, carry_eq]
  split
  · rename_i hlong
    have hone : (1 : Int32).toInt = 1 := rfl
    have hnext := toInt_add_one fun hmax => ht ⟨hlong, hmax⟩
    rw [IntegerSteps.add_eq (by rw [hnext, hone]), pure_bind]
  · rfl

/-- On integers that report an overflow, the carry past the highest exponent is one. -/
theorem carryVia_of_wraps (ht : t.Wraps) : t.carryVia = (.error .add : Checked Significand) := by
  obtain ⟨hlong, hmax⟩ := ht
  rw [carryVia, if_pos hlong, hmax]
  rfl

/-- The place of a significand is found without a step out of range. -/
theorem toWordVia_eq_ite (t : Significand) :
    t.toWordVia = (pure (
      if t.exponent < -1021 then
        if t.exponent < -1084 then 0
        else t.digits >>> (-1021 - t.exponent).toNatClampNeg.toUInt64
      else if 1024 < t.exponent then infinityWord
      else (1022 + t.exponent).toNatClampNeg.toUInt64 <<< mantissaBits.toUInt64 |||
        t.digits &&& mantissaMask) : M Word) := by
  rw [toWordVia]
  split
  · rename_i hlow
    rw [lt_neg_1021_iff] at hlow
    split
    · rfl
    · rename_i hcut
      rw [lt_neg_1084_iff] at hcut
      have h1021 : (-1021 : Int32).toInt = -1021 := rfl
      have hplaces := toInt_neg_1021_sub hlow
      rw [IntegerSteps.sub_eq (by rw [hplaces, h1021]), pure_bind,
        IntegerSteps.shift_eq (by omega) (by omega)]
  · rename_i hlow
    rw [lt_neg_1021_iff] at hlow
    split
    · rfl
    · rename_i hhigh
      rw [lt_1024_iff] at hhigh
      have h1022 : (1022 : Int32).toInt = 1022 := rfl
      have hbiased := toInt_1022_add (not_lt.mp hhigh)
      rw [IntegerSteps.add_eq (by rw [hbiased, h1022]), pure_bind,
        IntegerSteps.cast_eq (by omega), pure_bind]

theorem toWord_eq (t : Significand) :
    t.toWord =
      if t.exponent < -1021 then
        if t.exponent < -1084 then 0
        else t.digits >>> (-1021 - t.exponent).toNatClampNeg.toUInt64
      else if 1024 < t.exponent then infinityWord
      else (1022 + t.exponent).toNatClampNeg.toUInt64 <<< mantissaBits.toUInt64 |||
        t.digits &&& mantissaMask :=
  congrArg Id.run t.toWordVia_eq_ite

theorem toWordVia_eq (t : Significand) : t.toWordVia = (pure t.toWord : M Word) := by
  rw [toWordVia_eq_ite, toWord_eq]

end Steps

/-! ### The place of a significand -/

/-- Eleven bits move to the exponent field whole. -/
theorem toNat_shiftLeft_mantissaBits {b : UInt64} (hb : b.toNat < 2 ^ 11) :
    (b <<< mantissaBits.toUInt64).toNat = b.toNat * 2 ^ 52 := by
  have hplaces : mantissaBits.toUInt64.toNat % 64 = 52 := by decide
  rw [UInt64.toNat_shiftLeft, hplaces, Nat.shiftLeft_eq, Nat.mod_eq_of_lt (by omega)]

/-- Below the normal numbers, the significand of a fraction is the one of the digits, shifted. -/
theorem eq_shift_of_subnormal {d : Digits} {n k : ℕ} {e : ℤ} (hn : n < 2 ^ 53)
    (he : -1021 - e = k) (hk : 0 < k) (hv : d.value = n * 2 ^ (e - 53)) :
    d.word = d.significand ∧ n = d.significand * 2 ^ k := by
  have hplace : d.word < 2 ^ 52 := by
    rw [d.word_lt_two_pow_52_iff, hv]
    calc (n : ℚ) * 2 ^ (e - 53) < 2 ^ 53 * 2 ^ (e - 53) := by
          gcongr
          exact_mod_cast hn
      _ = 2 ^ e := by
          rw [← zpow_natCast, ← zpow_add₀ two_ne_zero, Nat.cast_ofNat, add_sub_cancel]
      _ ≤ 2 ^ (-1022 : ℤ) := zpow_le_zpow_right₀ one_le_two (by omega)
  have hexp : d.exponent = -1074 := by
    have hle := d.le_exponent
    rw [Digits.word] at hplace
    omega
  refine ⟨by rw [Digits.word, hexp]; omega, ?_⟩
  have heq : (n : ℚ) * 2 ^ (e - 53) = (d.significand * 2 ^ k : ℕ) * 2 ^ (e - 53) := by
    rw [← hv, Digits.value, hexp, Nat.cast_mul, Nat.cast_pow, Nat.cast_ofNat, ← zpow_natCast,
      mul_zpow_mul_zpow, show (k : ℤ) + (e - 53) = -1074 by omega]
  exact_mod_cast mul_right_cancel₀ (by positivity) heq

/-- Below the normal numbers the place is the significand without the bits that are shifted out,
also where the shift is cut short. -/
theorem toNat_toWord_of_low (m : UInt64) {e : Int32} (he : e.toInt < -1021) :
    (toWord ⟨m, e⟩).toNat = m.toNat / 2 ^ (-1021 - e.toInt).toNat := by
  rw [toWord_eq, if_pos (lt_neg_1021_iff.mpr he)]
  by_cases hzero : e.toInt < -1084
  · have hpow : 2 ^ 64 ≤ 2 ^ (-1021 - e.toInt).toNat := Nat.pow_le_pow_right (by decide) (by omega)
    rw [if_pos (lt_neg_1084_iff.mpr hzero), Nat.div_eq_of_lt (m.toNat_lt.trans_le hpow)]
    rfl
  · have hplaces : (-1021 - e).toNatClampNeg.toUInt64.toNat = (-1021 - e.toInt).toNat := by
      rw [toNatClampNeg_neg_1021_sub he]
      exact toNat_ofNat (by omega)
    rw [if_neg (mt lt_neg_1084_iff.mp hzero), UInt64.toNat_shiftRight, hplaces,
      Nat.mod_eq_of_lt (by omega), Nat.shiftRight_eq_div_pow]

theorem toNat_toWord_of_subnormal {d : Digits} {n : ℕ} {e : Int32} (hn : n < 2 ^ 53)
    (he : e.toInt < -1021) (hv : d.value = n * 2 ^ (e.toInt - 53)) :
    (toWord ⟨UInt64.ofNat n, e⟩).toNat = d.word := by
  obtain ⟨k, hk⟩ : ∃ k : ℕ, -1021 - e.toInt = k := Int.eq_ofNat_of_zero_le (by omega)
  obtain ⟨hword, hshift⟩ := eq_shift_of_subnormal hn hk (by omega) hv
  rw [toNat_toWord_of_low _ he, toNat_ofNat (by omega), hk, Int.toNat_natCast, hshift,
    Nat.mul_div_cancel _ (by positivity), hword]

/-- Past the normal numbers every significand becomes an infinity. -/
theorem toWord_of_high (m : UInt64) {e : Int32} (he : 1024 < e.toInt) :
    toWord ⟨m, e⟩ = infinityWord := by
  have hmin : -1021 ≤ e.toInt := by omega
  rw [toWord_eq, if_neg (mt lt_neg_1021_iff.mp hmin.not_gt), if_pos (lt_1024_iff.mpr he)]

/-- Among the normal numbers the place is the exponent field with the significand below it, without
the bits that do not fit there. -/
theorem toNat_toWord_of_middle (m : UInt64) {e : Int32} (he : -1021 ≤ e.toInt)
    (he' : e.toInt ≤ 1024) :
    (toWord ⟨m, e⟩).toNat = (1022 + e.toInt).toNat * 2 ^ 52 + m.toNat % 2 ^ 52 := by
  have hfield : (1022 + e).toNatClampNeg.toUInt64.toNat = (1022 + e.toInt).toNat := by
    rw [toNatClampNeg_1022_add he']
    exact toNat_ofNat (by omega)
  have hplaced := toNat_shiftLeft_mantissaBits (b := (1022 + e).toNatClampNeg.toUInt64) (by omega)
  have hmask : mantissaMask.toNat = 2 ^ 52 - 1 := by decide
  rw [toWord_eq, if_neg (mt lt_neg_1021_iff.mp he.not_gt),
    if_neg (mt lt_1024_iff.mp he'.not_gt), UInt64.toNat_or, UInt64.toNat_and, hmask,
    Nat.and_two_pow_sub_one_eq_mod, hplaced, hfield, ← Nat.shiftLeft_eq,
    ← Nat.shiftLeft_add_eq_or_of_lt (Nat.mod_lt _ (by decide)), Nat.shiftLeft_eq]

/-- From the smallest normal number up a significand is placed whole, or becomes an infinity. -/
theorem exists_value_eq_of_normal {n : ℕ} {e : Int32} (hn : 2 ^ 52 ≤ n) (hn' : n < 2 ^ 53)
    (he : -1021 ≤ e.toInt) :
    ∃ d : Digits, d.value = n * 2 ^ (e.toInt - 53) ∧
      (toWord ⟨UInt64.ofNat n, e⟩).toNat = min d.word infinityPlace := by
  -- the significand with its exponent is in form already, and the ladder has no top
  let d : Digits := ⟨n, e.toInt - 53, hn', by omega, .inl hn⟩
  have hword : d.word = (e.toInt + 1021).toNat * 2 ^ 52 + n := by
    show (e.toInt - 53 + 1074).toNat * 2 ^ 52 + n = _
    rw [show e.toInt - 53 + 1074 = e.toInt + 1021 by omega]
  refine ⟨d, rfl, ?_⟩
  rw [hword]
  rcases lt_or_ge 1024 e.toInt with hover | hhigh
  · rw [toWord_of_high _ hover, min_eq_right (by rw [infinityPlace]; omega)]
    decide
  · rw [toNat_toWord_of_middle _ he hhigh, toNat_ofNat (by omega),
      min_eq_left (by rw [infinityPlace]; omega)]
    omega

theorem toNat_toWord_of_normal {d : Digits} {n : ℕ} {e : Int32} (hn : 2 ^ 52 ≤ n)
    (hn' : n < 2 ^ 53) (he : -1021 ≤ e.toInt) (hd : d.word < infinityPlace)
    (hv : d.value = n * 2 ^ (e.toInt - 53)) :
    (toWord ⟨UInt64.ofNat n, e⟩).toNat = d.word := by
  obtain ⟨c, hc, hword⟩ := exists_value_eq_of_normal hn hn' he
  rw [hword, Digits.value_injective (hc.trans hv.symm), min_eq_left hd.le]

/-- A significand of 54 digits that ends in a zero loses the zero, and its exponent grows. -/
theorem carry_two_mul {n : ℕ} (hn : 2 ^ 52 ≤ n) (hn' : n < 2 ^ 53) (e : Int32) :
    carry ⟨UInt64.ofNat (2 * n), e⟩ = ⟨UInt64.ofNat n, e + 1⟩ := by
  have hlong : mantissaMask ||| implicitBit < UInt64.ofNat (2 * n) := by
    rw [implicitBit_lt_iff, toNat_ofNat (by omega)]
    omega
  have hshift : UInt64.ofNat (2 * n) >>> 1 = UInt64.ofNat n := by
    refine UInt64.toNat_inj.mp ?_
    rw [toNat_shiftRight_one, toNat_ofNat (by omega), toNat_ofNat (by omega)]
    omega
  rw [carry_eq, if_pos hlong, hshift]

end Significand

namespace Split
variable {M : Type → Type} [Monad M] {mul : Float → Float → M Float} {f : ℚ} {s : Split}

/-- The machine multiplies alike on all integers. -/
theorem significandVia_times [LawfulMonad M] (s : Split) :
    s.significandVia times = (pure (Id.run (s.significandVia times)) : M Significand) := by
  rw [significandVia, times, pure_bind]
  rfl

/-- Packing takes no step out of range but the carry past the highest exponent. -/
theorem packVia_times [IntegerSteps M] [LawfulMonad M]
    (hs : ¬ (Id.run (s.significandVia times)).Wraps) (sign : Word) :
    s.packVia times sign = (pure (s.pack sign) : M Word) := by
  rw [packVia, significandVia_times, pure_bind, Significand.carryVia_eq hs, pure_bind,
    Significand.toWordVia_eq, pure_bind, pack_eq]

theorem packChecked_eq (s : Split) (sign : Word) :
    s.packChecked sign =
      if (Id.run (s.significandVia times)).Wraps then .error .add else .ok (s.pack sign) := by
  split
  · rename_i hs
    rw [packChecked, packVia, significandVia_times, pure_bind, Significand.carryVia_of_wraps hs]
    rfl
  · rename_i hs
    exact packVia_times hs sign

theorem rational?_two53 : rational? two53 = some (2 ^ (53 : ℤ)) :=
  rational?_twoPow (k := 53) (by decide)

/-- Times `2 ^ 53`, a fraction in `[0.5, 1)` has its leading bit where integers begin. -/
theorem Stands.scaled_bounds (h : s.Stands f q) (hf : 1 / 2 ≤ f) (hf' : f < 1) :
    Representable (f * 2 ^ (53 : ℤ)) ∧ 2 ^ 52 ≤ f * 2 ^ (53 : ℤ) ∧ f * 2 ^ (53 : ℤ) < 2 ^ 53 := by
  have hpow : (2 : ℚ) ^ (53 : ℤ) = 2 ^ 53 := zpow_natCast 2 53
  have hlow : 2 ^ 52 ≤ f * 2 ^ (53 : ℤ) := by
    rw [hpow]
    linarith
  have hhigh : f * 2 ^ (53 : ℤ) < 2 ^ 53 := by
    rw [hpow]
    linarith
  refine ⟨h.representable.mul_zpow (.inl (by decide)) ?_, hlow, hhigh⟩
  rw [abs_of_pos (lt_of_lt_of_le (by positivity) hlow)]
  exact hhigh.trans_le (pow_le_pow_right₀ one_le_two (by decide))

variable [LawfulMonad M]

/-- An integer from `2 ^ 52` up is neither rounded nor cut by the conversion. -/
theorem significandVia_of_natCast {z : Float} {n : ℕ} (hz : mul s.fraction two53 = pure z)
    (hv : rational? z = some (n : ℚ)) (hn : 2 ^ 52 ≤ n) (hn' : n < 2 ^ 64) :
    significandVia mul s = pure ⟨UInt64.ofNat n, s.exponent⟩ := by
  have hround : roundTiesEven z = z := by
    refine roundTiesEven_eq_self hv ?_
    rw [abs_of_nonneg (Nat.cast_nonneg n)]
    exact_mod_cast hn
  have hint : z.toUInt64 = UInt64.ofNat n := by
    refine UInt64.toNat_inj.mp ?_
    rw [toNat_toUInt64 hv, Nat.floor_natCast, Significand.toNat_ofNat hn', min_eq_left (by omega)]
  rw [significandVia, hz, pure_bind, hround, hint]

/-- The significand of a split with a fraction in `[0.5, 1)` has 53 binary places. -/
theorem significandVia_eq (hm : MulExact mul) (h : s.Stands f q) (hf : 1 / 2 ≤ f) (hf' : f < 1) :
    ∃ n : ℕ, significandVia mul s = pure ⟨UInt64.ofNat n, s.exponent⟩ ∧
      2 ^ 52 ≤ n ∧ n < 2 ^ 53 ∧ q = n * 2 ^ (s.exponent.toInt - 53) := by
  obtain ⟨hrep, hlow, hhigh⟩ := h.scaled_bounds hf hf'
  obtain ⟨z, hz, hv⟩ := hm.exists_eq h.fraction rational?_two53 (by linarith) (by positivity) hrep
  obtain ⟨n, hn⟩ := hrep.exists_natCast_eq hlow
  rw [hn] at hlow hhigh hv
  have hlow' : 2 ^ 52 ≤ n := by exact_mod_cast hlow
  have hhigh' : n < 2 ^ 53 := by exact_mod_cast hhigh
  refine ⟨n, significandVia_of_natCast hz hv hlow' (by omega), hlow', hhigh', ?_⟩
  rw [← h.value, ← hn, mul_zpow_mul_zpow, show 53 + (s.exponent.toInt - 53) = s.exponent.toInt by
    omega]

variable [IntegerSteps M]

/-- Packing such a split places its significand, which has no digit to carry. -/
theorem exists_packVia_eq (hm : MulExact mul) (h : s.Stands f q) (hf : 1 / 2 ≤ f) (hf' : f < 1)
    (sign : Word) :
    ∃ n : ℕ, packVia mul sign s =
        pure (sign ||| Significand.toWord ⟨UInt64.ofNat n, s.exponent⟩) ∧
      2 ^ 52 ≤ n ∧ n < 2 ^ 53 ∧ q = n * 2 ^ (s.exponent.toInt - 53) := by
  obtain ⟨n, hn, hlow, hhigh, hv⟩ := significandVia_eq hm h hf hf'
  refine ⟨n, ?_, hlow, hhigh, hv⟩
  rw [packVia, hn, pure_bind, Significand.carryVia_eq_self hhigh, pure_bind,
    Significand.toWordVia_eq, pure_bind]

/-- A split that stands for the number of some digits is packed into their place. -/
theorem packVia_eq (hm : MulExact mul) {d : Digits} (hd : d.word < infinityPlace)
    (h : s.Stands f d.value) (hf : 1 / 2 ≤ f) (hf' : f < 1) (sign : Word) :
    packVia mul sign s = pure (sign ||| UInt64.ofNat d.word) := by
  obtain ⟨n, hn, hlow, hhigh, hv⟩ := exists_packVia_eq hm h hf hf' sign
  have hword : (Significand.toWord ⟨UInt64.ofNat n, s.exponent⟩).toNat = d.word := by
    rcases lt_or_ge s.exponent.toInt (-1021) with he | he
    · exact Significand.toNat_toWord_of_subnormal hhigh he hv
    · exact Significand.toNat_toWord_of_normal hlow hhigh he hd hv
  rw [hn, ← hword, UInt64.ofNat_toNat]

end Split
end FloatWord
