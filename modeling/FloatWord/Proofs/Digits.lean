import FloatWord.Exact

/-!
# Proofs — Digits — the nonnegative doubles as a ladder

A finite double is a sign and *digits*: a significand below `2 ^ 53` and an exponent, in the one
form that leaves no choice between `2 * m` and an exponent one higher (`Digits.normal`).  The
digits are in order of their value on the places `0, 1, 2, …` (`Digits.word`), and the place is
the word of the double without its sign.  The ladder has no top: the place `infinityPlace`, which
a word spends on `+∞`, holds `2 ^ 1024`.

* `value_lt_value`: a higher place is a larger number.
* `exists_value_eq`: a short significand over the least exponent is the value of some digits.
* `Nearest`, `exists_closer`: what it means to round to the ladder, and why that leaves no
  choice.
* `nearest_of_isNearestInt`: rounding to an integer at the right exponent rounds to the ladder.
-/

namespace FloatWord

/-- A significand and an exponent, with the leading bit in place unless the exponent is the least
one. -/
@[ext]
structure Digits where
  significand : ℕ
  exponent : ℤ
  significand_lt : significand < 2 ^ 53
  le_exponent : -1074 ≤ exponent
  normal : 2 ^ 52 ≤ significand ∨ exponent = -1074

/-- The place of `+∞`, and of the digits of `2 ^ 1024`. -/
def infinityPlace : ℕ := 2047 * 2 ^ 52

namespace Digits

/-- The number that the digits stand for. -/
def value (d : Digits) : ℚ := d.significand * 2 ^ d.exponent

/-- The place of the digits on the ladder. -/
def word (d : Digits) : ℕ := (d.exponent + 1074).toNat * 2 ^ 52 + d.significand

/-- The digits at a place. -/
def ofWord (k : ℕ) : Digits where
  significand := if k < 2 ^ 52 then k else 2 ^ 52 + k % 2 ^ 52
  exponent := max (k / 2 ^ 52 : ℕ) 1 - 1075
  significand_lt := by split <;> omega
  le_exponent := by omega
  normal := by split <;> omega

theorem word_ofWord (k : ℕ) : (ofWord k).word = k := by
  simp only [word, ofWord]
  split <;> omega

theorem ofWord_of_lt {k : ℕ} (h : k < 2 ^ 52) :
    (ofWord k).significand = k ∧ (ofWord k).exponent = -1074 :=
  ⟨if_pos h, by simp only [ofWord]; omega⟩

theorem ofWord_of_le {k : ℕ} (h : 2 ^ 52 ≤ k) :
    (ofWord k).significand = 2 ^ 52 + k % 2 ^ 52 ∧
      (ofWord k).exponent = (k / 2 ^ 52 : ℕ) - 1075 :=
  ⟨if_neg (by omega), by simp only [ofWord]; omega⟩

theorem word_injective : Function.Injective word := by
  intro d d' h
  have := d.significand_lt; have := d'.significand_lt
  have := d.le_exponent; have := d'.le_exponent
  have := d.normal; have := d'.normal
  simp only [word] at h
  ext <;> omega

theorem ofWord_word (d : Digits) : ofWord d.word = d :=
  word_injective (word_ofWord _)

theorem even_word_iff (d : Digits) : Even d.word ↔ Even d.significand := by
  simp only [word, Nat.even_iff]
  omega

theorem word_eq_zero_iff (d : Digits) : d.word = 0 ↔ d.significand = 0 := by
  have := d.le_exponent; have := d.normal
  simp only [word]
  omega

theorem value_nonneg (d : Digits) : 0 ≤ d.value := by
  rw [value]
  positivity

/-! ### The order of the places is the order of the values -/

theorem value_lt_of_word_lt {d d' : Digits} (h : d.word < d'.word) : d.value < d'.value := by
  have hd := d.significand_lt
  have := d'.significand_lt
  have := d.le_exponent; have := d'.le_exponent
  have := d.normal; have := d'.normal
  simp only [word] at h
  have he : d.exponent ≤ d'.exponent := by omega
  rcases he.eq_or_lt with he | he
  · have hs : d.significand < d'.significand := by omega
    rw [value, value, he]
    gcongr
  · -- the leading bit of the higher exponent alone outweighs the lower significand
    have hd' : 2 ^ 52 ≤ d'.significand := by omega
    calc d.value < 2 ^ 53 * 2 ^ d.exponent := by rw [value]; gcongr; exact_mod_cast hd
      _ = 2 ^ 52 * 2 ^ (d.exponent + 1) := by rw [zpow_add₀ two_ne_zero]; ring
      _ ≤ 2 ^ 52 * 2 ^ d'.exponent := by gcongr; exacts [one_le_two, he]
      _ ≤ d'.value := by rw [value]; gcongr; exact_mod_cast hd'

theorem value_lt_value {d d' : Digits} : d.value < d'.value ↔ d.word < d'.word := by
  refine ⟨fun h => ?_, value_lt_of_word_lt⟩
  by_contra hw
  rcases (not_lt.mp hw).eq_or_lt with hw | hw
  · rw [word_injective hw] at h
    exact lt_irrefl _ h
  · exact lt_asymm h (value_lt_of_word_lt hw)

theorem value_le_value {d d' : Digits} : d.value ≤ d'.value ↔ d.word ≤ d'.word := by
  rw [← not_lt, value_lt_value, not_lt]

theorem value_injective : Function.Injective value := fun _ _ h =>
  word_injective (le_antisymm (value_le_value.mp h.le) (value_le_value.mp h.ge))

theorem value_eq_zero_iff (d : Digits) : d.value = 0 ↔ d.significand = 0 := by
  simp [value, zpow_ne_zero]

theorem value_pos_iff (d : Digits) : 0 < d.value ↔ 0 < d.word := by
  rw [d.value_nonneg.lt_iff_ne', Nat.pos_iff_ne_zero, Ne, Ne, value_eq_zero_iff, word_eq_zero_iff]

theorem value_ofWord_zero : (ofWord 0).value = 0 :=
  (value_eq_zero_iff _).mpr (by decide)

/-- The digits of `2 ^ 1024`. -/
theorem value_ofWord_infinityPlace : (ofWord infinityPlace).value = 2 ^ 1024 := by
  obtain ⟨hs, he⟩ := ofWord_of_le (k := infinityPlace) (by decide)
  have hs' : 2 ^ 52 + infinityPlace % 2 ^ 52 = 2 ^ 52 := by decide
  have he' : ((infinityPlace / 2 ^ 52 : ℕ) : ℤ) - 1075 = 972 := by decide
  rw [value, hs, he, hs', he', Nat.cast_pow, Nat.cast_ofNat, ← zpow_natCast, ← zpow_natCast,
    ← zpow_add₀ two_ne_zero]
  rfl

/-- The digits of the smallest positive double. -/
theorem value_ofWord_one : (ofWord 1).value = 2 ^ (-1074 : ℤ) := by
  obtain ⟨hs, he⟩ := ofWord_of_lt (k := 1) (by decide)
  rw [value, hs, he, Nat.cast_one, one_mul]

/-- The largest digits below `2 ^ 1024`. -/
theorem value_ofWord_pred_infinityPlace :
    (ofWord (infinityPlace - 1)).value = 2 ^ 1024 - 2 ^ 971 := by
  obtain ⟨hs, he⟩ := ofWord_of_le (k := infinityPlace - 1) (by decide)
  have hs' : 2 ^ 52 + (infinityPlace - 1) % 2 ^ 52 = 2 ^ 53 - 1 := by decide
  have he' : (((infinityPlace - 1) / 2 ^ 52 : ℕ) : ℤ) - 1075 = 971 := by decide
  rw [value, hs, he, hs', he', Nat.cast_sub (by decide), Nat.cast_pow, Nat.cast_ofNat, Nat.cast_one,
    sub_mul, one_mul, ← zpow_natCast, ← zpow_add₀ two_ne_zero]
  rfl

theorem exponent_le {d : Digits} (h : d.word < infinityPlace) : d.exponent ≤ 971 := by
  have := d.normal
  rw [infinityPlace, word] at h
  omega

theorem word_lt_infinityPlace_iff (d : Digits) : d.word < infinityPlace ↔ d.value < 2 ^ 1024 := by
  rw [← value_ofWord_infinityPlace, value_lt_value, word_ofWord]

/-- The digits of the smallest normal number. -/
theorem value_ofWord_two_pow_52 : (ofWord (2 ^ 52)).value = 2 ^ (-1022 : ℤ) := by
  obtain ⟨hs, he⟩ := ofWord_of_le (k := 2 ^ 52) le_rfl
  have hs' : 2 ^ 52 + 2 ^ 52 % 2 ^ 52 = 2 ^ 52 := by decide
  have he' : ((2 ^ 52 / 2 ^ 52 : ℕ) : ℤ) - 1075 = -1074 := by decide
  rw [value, hs, he, hs', he', Nat.cast_pow, Nat.cast_ofNat, ← zpow_natCast,
    ← zpow_add₀ two_ne_zero]
  rfl

theorem word_lt_two_pow_52_iff (d : Digits) : d.word < 2 ^ 52 ↔ d.value < 2 ^ (-1022 : ℤ) := by
  rw [← value_ofWord_two_pow_52, value_lt_value, word_ofWord]

/-- Every short significand over the least exponent can be brought into form. -/
theorem exists_value_eq {n : ℕ} {e : ℤ} (hn : n < 2 ^ 53) (he : -1074 ≤ e) :
    ∃ d : Digits, d.value = n * 2 ^ e := by
  rcases Nat.eq_zero_or_pos n with rfl | hpos
  · exact ⟨ofWord 0, by rw [value_ofWord_zero, Nat.cast_zero, zero_mul]⟩
  have hlog : n.log2 < 53 := (Nat.log2_lt hpos.ne').mpr hn
  have hlow := Nat.log2_self_le hpos.ne'
  have hhigh : n < 2 ^ (n.log2 + 1) := Nat.lt_log2_self
  -- shift the leading bit to its place, or down to the least exponent
  obtain ⟨k, hk⟩ : ∃ k : ℕ, min (52 - (n.log2 : ℤ)) (e + 1074) = k :=
    Int.eq_ofNat_of_zero_le (by omega)
  have hk' : n.log2 + k ≤ 52 := by omega
  refine ⟨⟨n * 2 ^ k, e - k, ?_, by omega, ?_⟩, ?_⟩
  · calc n * 2 ^ k < 2 ^ (n.log2 + 1) * 2 ^ k := by gcongr
      _ = 2 ^ (n.log2 + k + 1) := by ring
      _ ≤ 2 ^ 53 := Nat.pow_le_pow_right (by decide) (by omega)
  · by_cases h : n.log2 + k = 52
    · left
      calc 2 ^ 52 = 2 ^ n.log2 * 2 ^ k := by rw [← pow_add, h]
        _ ≤ n * 2 ^ k := by gcongr
    · right
      omega
  · rw [value, Nat.cast_mul, Nat.cast_pow, Nat.cast_ofNat, ← zpow_natCast, mul_assoc,
      ← zpow_add₀ two_ne_zero, add_sub_cancel]

/-! ### Rounding to the ladder -/

/-- The digits are the ones nearest to `q`, and of two at the same distance the ones with an even
significand. -/
def Nearest (d : Digits) (q : ℚ) : Prop :=
  ∀ d' : Digits, |q - d.value| ≤ |q - d'.value| ∧
    (|q - d.value| = |q - d'.value| → d = d' ∨ Even d.significand)

theorem nearest_value (d : Digits) : d.Nearest d.value := by
  intro d'
  rw [sub_self, abs_zero]
  exact ⟨abs_nonneg _, fun h => .inl (value_injective (sub_eq_zero.mp (abs_eq_zero.mp h.symm)))⟩

/-- Two even places are not neighbours: between two digits with an even significand, there are
digits closer to the middle than both. -/
theorem exists_closer {d d' : Digits} {q : ℚ} (h : d.word < d'.word) (hd : Even d.significand)
    (hd' : Even d'.significand) (hq : |q - d.value| = |q - d'.value|) :
    ∃ m : Digits, m.word < d'.word ∧ |q - m.value| < |q - d.value| := by
  have hw := (even_word_iff d).mpr hd
  have hw' := (even_word_iff d').mpr hd'
  have hne : d.word + 1 ≠ d'.word := fun e => by
    rw [← e, Nat.even_add_one] at hw'
    exact hw' hw
  have h₁ : d.value < (ofWord (d.word + 1)).value := value_lt_of_word_lt (by
    rw [word_ofWord]; omega)
  have h₂ : (ofWord (d.word + 1)).value < d'.value := value_lt_of_word_lt (by
    rw [word_ofWord]; omega)
  refine ⟨ofWord (d.word + 1), by rw [word_ofWord]; omega, ?_⟩
  -- `q` is the middle of the two, since they differ and are equally far
  have hmid : q - d.value = d'.value - q := by
    rcases abs_eq_abs.mp hq with e | e <;> linarith
  have hpos : 0 < q - d.value := by linarith
  rw [abs_of_pos hpos, abs_lt]
  constructor <;> linarith

end Digits

/-- Every other integer is at least as far, and strictly further unless the nearest one is even. -/
theorem IsNearestInt.le {q : ℚ} {n : ℤ} (h : IsNearestInt q n) (k : ℤ) :
    |q - n| ≤ |q - k| ∧ (|q - n| = |q - k| → n = k ∨ Even n) := by
  by_cases hk : n = k
  · rw [hk]
    exact ⟨le_rfl, fun _ => .inl rfl⟩
  have hone : (1 : ℚ) ≤ |(n : ℚ) - k| := by
    exact_mod_cast Int.one_le_abs (sub_ne_zero.mpr hk)
  have htri : |(n : ℚ) - k| ≤ |q - n| + |q - k| := by
    rw [abs_sub_comm q n]
    simpa using abs_add_le ((n : ℚ) - q) (q - k)
  refine ⟨by linarith [h.1], fun heq => .inr (h.2 (le_antisymm h.1 ?_))⟩
  linarith

namespace Digits

/-- A number in units of `2 ^ t` rounded to an integer is rounded to the ladder, provided that
the ladder has no finer steps there: `t` is the least exponent, or the number has 53 digits above
the unit. -/
theorem nearest_of_isNearestInt {d : Digits} {q : ℚ} {t : ℤ} {r : ℕ}
    (hr : IsNearestInt (q / 2 ^ t) r) (hd : d.value = r * 2 ^ t)
    (heven : Even r → Even d.significand) (ht : t = -1074 ∨ 2 ^ 52 ≤ q / 2 ^ t) :
    d.Nearest q := by
  intro d'
  have hpos : (0 : ℚ) < 2 ^ t := by positivity
  -- distances in units of `2 ^ t`
  have scale : ∀ v : ℚ, |q - v * 2 ^ t| = |q / 2 ^ t - v| * 2 ^ t := fun v => by
    rw [← abs_of_pos hpos, ← abs_mul, abs_of_pos hpos, sub_mul, div_mul_cancel₀ _ hpos.ne']
  rcases le_or_gt t d'.exponent with hle | hlt
  · obtain ⟨k, hk⟩ : ∃ k : ℕ, d'.exponent - t = k := Int.eq_ofNat_of_zero_le (by omega)
    have hd' : d'.value = ((d'.significand * 2 ^ k : ℕ) : ℤ) * 2 ^ t := by
      rw [value, show d'.exponent = k + t by omega, zpow_add₀ two_ne_zero, zpow_natCast]
      push_cast
      ring
    obtain ⟨hle, htie⟩ := hr.le (d'.significand * 2 ^ k : ℕ)
    rw [hd, hd', scale, scale]
    push_cast at hle htie ⊢
    refine ⟨by gcongr, fun h => ?_⟩
    rcases htie (mul_right_cancel₀ hpos.ne' h) with h | h
    · left
      apply value_injective
      rw [hd, hd']
      exact_mod_cast congrArg (fun z : ℤ => (z : ℚ) * 2 ^ t) h
    · exact .inr (heven (by exact_mod_cast h))
  · -- below the unit the other digits stay under `2 ^ 52` units, an integer that is closer
    have hq : 2 ^ 52 ≤ q / 2 ^ t := ht.resolve_left (by have := d'.le_exponent; omega)
    have hd' : d'.value / 2 ^ t < 2 ^ 52 := by
      rw [div_lt_iff₀ hpos]
      calc d'.value < 2 ^ 53 * 2 ^ d'.exponent := by
            rw [value]; gcongr; exact_mod_cast d'.significand_lt
        _ ≤ 2 ^ 53 * 2 ^ (t - 1) := by gcongr; exacts [one_le_two, by omega]
        _ = 2 ^ 52 * 2 ^ t := by rw [zpow_sub_one₀ two_ne_zero]; ring
    have hfar : |q - d.value| < |q - d'.value| := by
      rw [hd, ← div_mul_cancel₀ d'.value hpos.ne', scale, scale]
      gcongr
      have hle := (hr.le (2 ^ 52)).1
      rw [Int.cast_pow, Int.cast_ofNat, Int.cast_natCast, abs_of_nonneg (sub_nonneg.mpr hq)] at hle
      calc |q / 2 ^ t - r| ≤ q / 2 ^ t - 2 ^ 52 := hle
        _ < q / 2 ^ t - d'.value / 2 ^ t := sub_lt_sub_left hd' _
        _ ≤ |q / 2 ^ t - d'.value / 2 ^ t| := le_abs_self _
    exact ⟨hfar.le, fun h => absurd h hfar.ne⟩

end Digits

end FloatWord
