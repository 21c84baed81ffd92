import FloatWord.Proofs.Encoding
import FloatWord.Proofs.Scaling

/-!
# Proofs — Recombining — packing a fraction and scaling it

A fraction in `[0.5, 1)` and an exponent can be put together in two ways: `Split.pack` shifts the
integer significand into its place, and `scale` multiplies; the word of the product is the other
result.  From the smallest normal number up both are exact, and past the top both are an infinity
(`encode_scale_of_normal`).  Below, the shift drops the bits that do not fit and the product is
rounded by them (`encode_scale_of_low`): the two places are the integers below and nearest to one
number, in units of the smallest double, and so they differ by one at most
(`encode_scale_eq_pack_or_succ`).
-/

namespace FloatWord

variable {x f : Float} {p q : ℚ} {n : Int32} {e : Int32}

/-! ### The integer nearest to a quotient -/

/-- The integer nearest to a number is its floor, or the next one if it lies above the number. -/
theorem IsNearestInt.eq_ite {c r : ℤ} (h : IsNearestInt q r) (hc : c ≤ q) (hc' : q < c + 1) :
    r = if q < r then c + 1 else c := by
  have hge : c ≤ r := h.ge_of_ge hc
  have hle : r ≤ c + 1 := h.le_of_le (by exact_mod_cast hc'.le)
  split
  · rename_i hup
    have hlt : c < r := by exact_mod_cast hc.trans_lt hup
    omega
  · rename_i hdown
    have hlt : r < c + 1 := by exact_mod_cast (not_lt.mp hdown).trans_lt hc'
    omega

/-- The quotient of two integers, cut down, is the floor. -/
theorem div_two_pow_bounds (m k : ℕ) :
    (((m / 2 ^ k : ℕ) : ℤ) : ℚ) ≤ m / 2 ^ k ∧ (m : ℚ) / 2 ^ k < ((m / 2 ^ k : ℕ) : ℤ) + 1 := by
  rw [Int.cast_natCast, le_div_iff₀ (by positivity), div_lt_iff₀ (by positivity)]
  constructor
  · exact_mod_cast Nat.div_mul_le_self m (2 ^ k)
  · exact_mod_cast (Nat.div_lt_iff_lt_mul (Nat.two_pow_pos k)).mp (Nat.lt_succ_self (m / 2 ^ k))

/-- A quotient that leaves no remainder is not rounded up, -/
theorem not_lt_of_mod_eq_zero {m k : ℕ} {r : ℤ} (h : IsNearestInt ((m : ℚ) / 2 ^ k) r)
    (hm : m % 2 ^ k = 0) : ¬ (m : ℚ) / 2 ^ k < r := by
  have hdiv : (m : ℚ) / 2 ^ k = ((m / 2 ^ k : ℕ) : ℤ) := by
    rw [Int.cast_natCast, Nat.cast_div (Nat.dvd_of_mod_eq_zero hm) (by positivity), Nat.cast_pow,
      Nat.cast_ofNat]
  have hle := h.le_of_le hdiv.le
  rw [hdiv, Int.cast_lt]
  omega

/-- and neither is one below a half. -/
theorem not_lt_of_le {m k : ℕ} {r : ℤ} (h : IsNearestInt ((m : ℚ) / 2 ^ k) r) (hm : m < 2 ^ 53)
    (hk : 54 ≤ k) : ¬ (m : ℚ) / 2 ^ k < r := by
  have hpow : 2 ^ 54 ≤ 2 ^ k := Nat.pow_le_pow_right two_pos hk
  have hhalf : (m : ℚ) / 2 ^ k < 1 / 2 := by
    rw [div_lt_div_iff₀ (by positivity) two_pos]
    exact_mod_cast (by omega : m * 2 < 1 * 2 ^ k)
  have hr : (r : ℚ) < 1 := by linarith [(abs_le.mp h.1).1]
  have hr' : r ≤ 0 := Int.lt_add_one_iff.mp (by exact_mod_cast hr)
  have hpos : (0 : ℚ) ≤ (m : ℚ) / 2 ^ k := by positivity
  have hcast : (r : ℚ) ≤ 0 := by exact_mod_cast hr'
  exact not_lt.mpr (hcast.trans hpos)

/-! ### The two results as places -/

theorem toNat_encode_ofDigits (d : Digits) :
    (encode (ofDigits false d)).toNat = min d.word infinityPlace := by
  rw [encode_eq_toBits (isNaN_ofDigits _ _), toNat_toBits_ofDigits, if_neg Bool.false_ne_true,
    Nat.zero_add]

/-- Scaling a positive number ends at the digits nearest to the result. -/
theorem toNat_encode_scale {d : Digits} (hx : rational? x = some p) (hp : 0 < p)
    (hd : d.Nearest (p * 2 ^ n.toInt)) :
    (encode (scale x n)).toNat = min d.word infinityPlace := by
  have hscale := isNearest_scale hx hp.ne' n
  have hdigits := isNearest_ofDigits (by positivity) hd false
  rw [isNegative_of_pos hx hp] at hscale
  rw [hscale.unique hdigits, toNat_encode_ofDigits]

/-- Up to the smallest normal number the places count in units of the smallest double. -/
theorem Digits.value_ofWord_of_le {k : ℕ} (hk : k ≤ 2 ^ 52) :
    (ofWord k).value = k * 2 ^ (-1074 : ℤ) := by
  rcases hk.lt_or_eq with hlt | rfl
  · obtain ⟨hs, he⟩ := ofWord_of_lt hlt
    rw [value, hs, he]
  · rw [value_ofWord_two_pow_52, Nat.cast_pow, Nat.cast_ofNat, ← zpow_natCast,
      ← zpow_add₀ two_ne_zero]
    rfl

/-- Rounding to an integer in units of the smallest double rounds to the place. -/
theorem Digits.nearest_ofWord {r : ℕ} (hr : IsNearestInt (q / 2 ^ (-1074 : ℤ)) r)
    (hle : r ≤ 2 ^ 52) : (ofWord r).Nearest q := by
  refine nearest_of_isNearestInt hr (value_ofWord_of_le hle) (fun heven => ?_) (.inl rfl)
  rwa [← even_word_iff, word_ofWord]

/-- The significand of a fraction is `2 ^ 53` times itself. -/
theorem exists_significand_eq (hf : rational? f = some q) (hq : 1 / 2 ≤ q) (hq' : q < 1)
    (e : Int32) :
    ∃ m : ℕ, Id.run (Split.significandVia times ⟨f, e⟩) = ⟨UInt64.ofNat m, e⟩ ∧
      2 ^ 52 ≤ m ∧ m < 2 ^ 53 ∧ q * 2 ^ 53 = m := by
  have hstands : Split.Stands ⟨f, e⟩ q (q * 2 ^ e.toInt) := ⟨hf, rfl⟩
  obtain ⟨m, hm, hlow, hhigh, hv⟩ :=
    Split.significandVia_eq (mulExact_times (M := Id)) hstands hq hq'
  refine ⟨m, congrArg Id.run hm, hlow, hhigh, ?_⟩
  have hexp : (2 : ℚ) ^ e.toInt = 2 ^ 53 * 2 ^ (e.toInt - 53) := by
    rw [← zpow_natCast, ← zpow_add₀ two_ne_zero, Nat.cast_ofNat, add_sub_cancel]
  rw [hexp, ← mul_assoc] at hv
  exact mul_right_cancel₀ (by positivity) hv

/-- Packing places the fraction as an integer, -/
theorem exists_pack_eq (hf : rational? f = some q) (hq : 1 / 2 ≤ q) (hq' : q < 1) (e : Int32) :
    ∃ m : ℕ, (∀ sign, Split.pack sign ⟨f, e⟩ = sign ||| Significand.toWord ⟨UInt64.ofNat m, e⟩) ∧
      2 ^ 52 ≤ m ∧ m < 2 ^ 53 ∧ q * 2 ^ 53 = m := by
  obtain ⟨m, hrun, hlow, hhigh, hm⟩ := exists_significand_eq hf hq hq' e
  refine ⟨m, fun sign => ?_, hlow, hhigh, hm⟩
  rw [Split.pack_eq, hrun, Significand.carry_eq_self hhigh]

/-- and takes no integer step out of range. -/
theorem packChecked_of_lt_one (hf : rational? f = some q) (hq : 1 / 2 ≤ q) (hq' : q < 1)
    (e : Int32) (sign : Word) : Split.packChecked sign ⟨f, e⟩ = .ok (Split.pack sign ⟨f, e⟩) := by
  obtain ⟨m, hrun, -, hhigh, -⟩ := exists_significand_eq hf hq hq' e
  refine Split.packVia_times ?_ sign
  rw [hrun]
  exact Significand.not_wraps_ofNat hhigh e

/-- In units of the significand's last digit, the number is the fraction times the power of two. -/
theorem mul_zpow_eq_of_mul_eq {m : ℕ} (hm : q * 2 ^ 53 = m) (e : ℤ) :
    (m : ℚ) * 2 ^ (e - 53) = q * 2 ^ e := by
  rw [← hm, ← zpow_natCast, mul_zpow_mul_zpow, Nat.cast_ofNat, add_sub_cancel]

/-! ### From the smallest normal number up -/

theorem encode_scale_of_normal (hf : rational? f = some q) (hq : 1 / 2 ≤ q) (hq' : q < 1)
    (he : -1021 ≤ e.toInt) : encode (scale f e) = Split.pack 0 ⟨f, e⟩ := by
  obtain ⟨m, hpack, hlow, hhigh, hm⟩ := exists_pack_eq hf hq hq' e
  obtain ⟨d, hvalue, hword⟩ := Significand.exists_value_eq_of_normal hlow hhigh he
  rw [mul_zpow_eq_of_mul_eq hm] at hvalue
  refine UInt64.toNat_inj.mp ?_
  rw [toNat_encode_scale hf (by linarith) (hvalue ▸ d.nearest_value), hpack, UInt64.zero_or, hword]

/-! ### Below -/

/-- The place of the packed word is the floor of a number of which the place of the scaled one is
the nearest integer: the fraction in units of the smallest double. -/
theorem encode_scale_of_low (hf : rational? f = some q) (hq : 1 / 2 ≤ q) (hq' : q < 1)
    (he : e.toInt < -1021) :
    ∃ m k r : ℕ, q * 2 ^ 53 = m ∧ m < 2 ^ 53 ∧ -1021 - e.toInt = k ∧
      q * 2 ^ (e.toInt + 1074) = m / 2 ^ k ∧ IsNearestInt ((m : ℚ) / 2 ^ k) r ∧
      (encode (scale f e)).toNat = r ∧ (Split.pack 0 ⟨f, e⟩).toNat = m / 2 ^ k := by
  obtain ⟨m, hpack, hlow, hhigh, hm⟩ := exists_pack_eq hf hq hq' e
  obtain ⟨k, hk⟩ : ∃ k : ℕ, -1021 - e.toInt = k := Int.eq_ofNat_of_zero_le (by omega)
  have hnumber : q * 2 ^ (e.toInt + 1074) = m / 2 ^ k := by
    rw [← hm, show e.toInt + 1074 = (53 : ℕ) - (k : ℤ) by omega, zpow_sub₀ two_ne_zero,
      zpow_natCast, zpow_natCast, mul_div_assoc]
  have hunits : q * 2 ^ e.toInt / 2 ^ (-1074 : ℤ) = m / 2 ^ k := by
    rw [← hnumber, mul_div_assoc, ← zpow_sub₀ two_ne_zero, sub_neg_eq_add]
  obtain ⟨r, hr⟩ := exists_isNearestInt ((m : ℚ) / 2 ^ k)
  obtain ⟨r, rfl⟩ := Int.eq_ofNat_of_zero_le (hr.ge_of_ge (k := 0) (by positivity))
  have hplace : r ≤ 2 ^ 52 := by
    have hpow : 2 ^ 1 ≤ 2 ^ k := Nat.pow_le_pow_right two_pos (by omega)
    have hle : (m : ℚ) / 2 ^ k ≤ ((2 ^ 52 : ℕ) : ℤ) := by
      rw [div_le_iff₀ (by positivity)]
      exact_mod_cast (by omega : m ≤ 2 ^ 52 * 2 ^ k)
    exact_mod_cast hr.le_of_le hle
  refine ⟨m, k, r, hm, hhigh, hk, hnumber, hr, ?_, ?_⟩
  · rw [toNat_encode_scale hf (by linarith) (Digits.nearest_ofWord (by rwa [hunits]) hplace),
      Digits.word_ofWord, min_eq_left (by rw [infinityPlace]; omega)]
  · rw [hpack, UInt64.zero_or, Significand.toNat_toWord_of_low _ he,
      Significand.toNat_ofNat (by omega), hk, Int.toNat_natCast]

/-- The nearest integer is the floor or the next one, and so with the words. -/
theorem encode_scale_of_low_eq_ite (hf : rational? f = some q) (hq : 1 / 2 ≤ q) (hq' : q < 1)
    (he : e.toInt < -1021) :
    ∃ m k r : ℕ, q * 2 ^ 53 = m ∧ m < 2 ^ 53 ∧ -1021 - e.toInt = k ∧
      q * 2 ^ (e.toInt + 1074) = m / 2 ^ k ∧ IsNearestInt ((m : ℚ) / 2 ^ k) r ∧
      encode (scale f e) =
        if (m : ℚ) / 2 ^ k < (r : ℤ) then Split.pack 0 ⟨f, e⟩ + 1 else Split.pack 0 ⟨f, e⟩ := by
  obtain ⟨m, k, r, hm, hhigh, hk, hnumber, hr, hscale, hpack⟩ := encode_scale_of_low hf hq hq' he
  obtain ⟨hfloor, hceil⟩ := div_two_pow_bounds m k
  have hite := hr.eq_ite hfloor hceil
  refine ⟨m, k, r, hm, hhigh, hk, hnumber, hr, UInt64.toNat_inj.mp ?_⟩
  split
  · rename_i hup
    rw [if_pos hup] at hite
    have hfit : m / 2 ^ k + 1 < 2 ^ 64 := by
      have hle := Nat.div_le_self m (2 ^ k)
      omega
    rw [UInt64.toNat_add, hscale, hpack, UInt64.toNat_one, Nat.mod_eq_of_lt hfit]
    exact_mod_cast hite
  · rename_i hdown
    rw [if_neg hdown] at hite
    rw [hscale, hpack]
    exact_mod_cast hite

/-- **Packing a fraction and scaling it agree up to the rounding of subnormal numbers.**  The word
of the scaled fraction is the packed word or the next one.  They are one from the smallest normal
number up, below half the smallest double, and where the shift drops zeros only; and the word is
the next one exactly where the number, in units of the smallest double, is rounded up.  Packing
takes no integer step out of range. -/
theorem encode_scale_eq_pack_or_succ (hf : rational? f = some q) (hq : 1 / 2 ≤ q) (hq' : q < 1)
    (e : Int32) :
    ∃ (m : ℕ) (r : ℤ), q * 2 ^ 53 = m ∧ IsNearestInt (q * 2 ^ (e.toInt + 1074)) r ∧
      (encode (scale f e) = Split.pack 0 ⟨f, e⟩ ∨
        encode (scale f e) = Split.pack 0 ⟨f, e⟩ + 1) ∧
      (-1021 ≤ e.toInt → encode (scale f e) = Split.pack 0 ⟨f, e⟩) ∧
      (e.toInt < -1074 → encode (scale f e) = Split.pack 0 ⟨f, e⟩) ∧
      (m % 2 ^ (-1021 - e.toInt).toNat = 0 → encode (scale f e) = Split.pack 0 ⟨f, e⟩) ∧
      (encode (scale f e) = Split.pack 0 ⟨f, e⟩ + 1 ↔ q * 2 ^ (e.toInt + 1074) < r) ∧
      Split.packChecked 0 ⟨f, e⟩ = .ok (Split.pack 0 ⟨f, e⟩) := by
  have hfit := packChecked_of_lt_one hf hq hq' e 0
  have hsucc : ∀ w : Word, w ≠ w + 1 := fun w => by simp
  rcases lt_or_ge e.toInt (-1021) with he | he
  · obtain ⟨m, k, r, hm, hhigh, hk, hnumber, hr, heq⟩ := encode_scale_of_low_eq_ite hf hq hq' he
    refine ⟨m, r, hm, by rwa [hnumber], ?_⟩
    rw [hnumber, hk, Int.toNat_natCast]
    by_cases hup : (m : ℚ) / 2 ^ k < (r : ℤ)
    · rw [if_pos hup] at heq
      exact ⟨.inr heq, fun h => absurd h (by omega),
        fun h => absurd hup (not_lt_of_le hr hhigh (by omega)),
        fun h => absurd hup (not_lt_of_mod_eq_zero hr h), ⟨fun _ => hup, fun _ => heq⟩,
        hfit⟩
    · rw [if_neg hup] at heq
      exact ⟨.inl heq, fun _ => heq, fun _ => heq, fun _ => heq,
        ⟨fun h => absurd (heq.symm.trans h) (hsucc _), fun h => absurd h hup⟩, hfit⟩
  · have heq := encode_scale_of_normal hf hq hq' he
    obtain ⟨m, -, -, -, hm⟩ := exists_pack_eq hf hq hq' e
    obtain ⟨j, hj⟩ : ∃ j : ℕ, e.toInt + 1021 = j := Int.eq_ofNat_of_zero_le (by omega)
    have hnumber : q * 2 ^ (e.toInt + 1074) = ((m * 2 ^ j : ℕ) : ℤ) := by
      rw [show e.toInt + 1074 = (53 : ℕ) + (j : ℤ) by omega, zpow_add₀ two_ne_zero, zpow_natCast,
        zpow_natCast, ← mul_assoc, hm]
      push_cast
      rfl
    refine ⟨m, (m * 2 ^ j : ℕ), hm, hnumber ▸ isNearestInt_intCast _, .inl heq, fun _ => heq,
      fun _ => heq, fun _ => heq,
      ⟨fun h => absurd (heq.symm.trans h) (hsucc _), fun h => ?_⟩, hfit⟩
    rw [hnumber] at h
    exact absurd h (lt_irrefl _)

theorem encode_scale_edges :
    encode (scale 0.5 1025) = Split.pack 0 ⟨0.5, 1025⟩ ∧
      encode (scale 0.5 (-1075)) = Split.pack 0 ⟨0.5, -1075⟩ ∧
      encode (scale 0.5 (-1022)) = Split.pack 0 ⟨0.5, -1022⟩ ∧
      encode (scale 0.75 (-1074)) = Split.pack 0 ⟨0.75, -1074⟩ + 1 := by
  let d : Digits := ⟨3 * 2 ^ 51, -53, by decide, by decide, .inl (by decide)⟩
  have hdigits : (0.75 : Float) = ofDigits false d := by decide
  have hf : rational? 0.75 = some (3 / 4) := by
    rw [hdigits, rational?_ofDigits (by decide)]
    show some (((3 * 2 ^ 51 : ℕ) : ℚ) * 2 ^ (-53 : ℤ)) = _
    norm_num
  have hhalf := fun e => encode_scale_eq_pack_or_succ rational?_half (by norm_num) (by norm_num) e
  obtain ⟨-, -, -, -, -, hhigh, -⟩ := hhalf 1025
  obtain ⟨-, -, -, -, -, -, hlow, -⟩ := hhalf (-1075)
  obtain ⟨m, -, hm, -, -, -, -, hexact, -⟩ := hhalf (-1022)
  obtain ⟨-, r, -, hr, -, -, -, -, hup, -⟩ :=
    encode_scale_eq_pack_or_succ hf (by norm_num) (by norm_num) (-1074)
  have hm' : m = 2 ^ 52 := by
    have hcast : (m : ℚ) = (2 ^ 52 : ℕ) := by
      rw [← hm]
      norm_num
    exact_mod_cast hcast
  have hexp : (-1074 : Int32).toInt + 1074 = 0 := rfl
  rw [hexp, zpow_zero, mul_one] at hr hup
  have hone : IsNearestInt (3 / 4) 1 := by
    rw [IsNearestInt, abs_of_neg (by norm_num)]
    norm_num
  rw [hr.unique hone] at hup
  exact ⟨hhigh (by decide), hlow (by decide), hexact (by rw [hm']; decide), hup.mpr (by norm_num)⟩

end FloatWord
