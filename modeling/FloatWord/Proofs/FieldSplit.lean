import FloatWord.Proofs.FieldViews
import FloatWord.Proofs.Rescaling

/-!
# Proofs — FieldSplit — the fields of a word and the split of its double

The fields of a word give an integer significand and an exponent; the split of its double gives a
fraction in `[0.5, 1)` and an exponent.  Both are the digits at the place of the word
(`exists_digits_of_significand?`, `rational?_decode`), so they stand for one number, and they do so
in two forms: over its bit length the significand is a fraction in `[0.5, 1)`
(`div_two_pow_size_bounds`), and a number has only one.  So the two exponents are the bit length
apart (`fields_agree_with_split`), which is 53 for every normal number, and for a subnormal one
less by its leading zeros.
-/

namespace FloatWord

variable {w : Word} {m : UInt64} {e : Int32}

/-- Over its bit length an integer is a fraction in `[0.5, 1)`. -/
theorem div_two_pow_size_bounds {n : ℕ} (hn : 0 < n) :
    1 / 2 ≤ (n : ℚ) / 2 ^ n.size ∧ (n : ℚ) / 2 ^ n.size < 1 := by
  obtain ⟨k, hk⟩ := Nat.exists_eq_succ_of_ne_zero (Nat.size_pos.mpr hn).ne'
  have hlow : 2 ^ k ≤ n := Nat.lt_size.mp (by omega)
  have hhigh : n < 2 ^ (k + 1) := Nat.size_le.mp hk.le
  rw [hk, div_le_div_iff₀ two_pos (by positivity), div_lt_one (by positivity)]
  constructor
  · exact_mod_cast (by omega : 1 * 2 ^ (k + 1) ≤ n * 2)
  · exact_mod_cast hhigh

/-! ### Which words are numbers other than zero -/

/-- A word is a number other than zero if its place is between zero and the infinities. -/
theorem exists_rational?_decode_iff (w : Word) :
    (∃ p, rational? (decode w) = some p ∧ p ≠ 0) ↔
      0 < w.toNat % 2 ^ 63 ∧ w.toNat % 2 ^ 63 < infinityPlace := by
  rcases lt_trichotomy (w.toNat % 2 ^ 63) infinityPlace with hlt | htop | hgt
  · have hword : (Digits.ofWord (w.toNat % 2 ^ 63)).word = w.toNat % 2 ^ 63 := Digits.word_ofWord _
    rw [decode_of_le hlt.le, rational?_ofDigits (by rwa [hword])]
    simp only [Option.some.injEq, exists_eq_left', ne_eq, signed_eq_zero_iff,
      Digits.value_eq_zero_iff, ← Digits.word_eq_zero_iff, hword, hlt, and_true]
    exact Nat.pos_iff_ne_zero.symm
  · rw [decode_of_le htop.le, rational?_ofDigits_of_le (by rw [Digits.word_ofWord, htop])]
    exact ⟨fun ⟨_, hp, _⟩ => (nomatch hp), fun h => absurd htop h.2.ne⟩
  · have hnan : (decode w).isNaN = true := by
      rw [decode_of_nan hgt]
      decide
    refine ⟨fun ⟨p, hp, _⟩ => ?_, fun h => absurd h.2 hgt.not_gt⟩
    rw [isNaN_of_rational? hp] at hnan
    cases hnan

theorem isSome_significand?_iff (w : Word) :
    (Fields.ofWord w).significand?.isSome = true ∧ (Fields.ofWord w).exponent?.isSome = true ↔
      0 < w.toNat % 2 ^ 63 ∧ w.toNat % 2 ^ 63 < infinityPlace := by
  refine ⟨fun h => ?_, fun h => ?_⟩
  · obtain ⟨m, hm⟩ := Option.isSome_iff_exists.mp h.1
    exact place_of_significand? hm
  · obtain ⟨m, e, hm, he, -⟩ := exists_significand? h.1 h.2
    rw [hm, he]
    exact ⟨rfl, rfl⟩

/-! ### What the fields say about the number -/

theorem isNegative_decode (h : ¬ IsNaNWord w) :
    isNegative (decode w) = (Fields.ofWord w).negative := by
  rw [isNaNWord_iff, not_lt] at h
  rw [decode_of_le h, isNegative_ofDigits]
  exact (and_signMask_bne w).symm

/-- The significand has its leading bit in place, or the exponent is the least one. -/
theorem significand_bounds (hm : (Fields.ofWord w).significand? = some m)
    (he : (Fields.ofWord w).exponent? = some e) :
    (Fields.ofWord w).floatClass = .normal ∧ 2 ^ 52 ≤ m.toNat ∧ m.toNat < 2 ^ 53 ∨
      (Fields.ofWord w).floatClass = .subnormal ∧ 1 ≤ m.toNat ∧ m.toNat < 2 ^ 52 ∧
        e.toInt = -1074 := by
  obtain ⟨d, hword, hpos, hlt, hms, hes⟩ := exists_digits_of_significand? hm he
  have hshort := d.significand_lt
  have hleast := d.le_exponent
  have hform := d.normal
  rw [floatClass_ofWord, FloatClass.ofPlace, ← hword]
  rcases lt_or_ge d.word (2 ^ 52) with hsub | hnormal
  · rw [if_pos hsub, if_neg hpos.ne']
    rw [Digits.word] at hsub hpos
    exact .inr ⟨rfl, by omega, by omega, by omega⟩
  · rw [if_neg (not_lt.mpr hnormal), if_pos hlt]
    rw [Digits.word] at hnormal
    exact .inl ⟨rfl, by omega, by omega⟩

/-- The number of a word is the significand times the power of two, under the sign. -/
theorem rational?_decode (hm : (Fields.ofWord w).significand? = some m)
    (he : (Fields.ofWord w).exponent? = some e) :
    rational? (decode w) = some (signed (Fields.ofWord w).negative (m.toNat * 2 ^ e.toInt)) := by
  obtain ⟨d, hword, -, hlt, hms, hes⟩ := exists_digits_of_significand? hm he
  have hnegative : (Fields.ofWord w).negative = decide (2 ^ 63 ≤ w.toNat) := and_signMask_bne w
  rw [decode_of_le (hword ▸ hlt.le), ← hword, Digits.ofWord_word, rational?_ofDigits hlt,
    Digits.value, hms, hes, hnegative]

/-- The fraction of the split is the significand over its bit length, and the exponent makes up
for it. -/
theorem exists_fraction_eq (hm : (Fields.ofWord w).significand? = some m)
    (he : (Fields.ofWord w).exponent? = some e) :
    ∃ f, rational? (Split.ofFloat (decode w)).fraction = some f ∧
      |f| = m.toNat / 2 ^ m.toNat.size ∧
      (Split.ofFloat (decode w)).exponent.toInt = e.toInt + m.toNat.size := by
  have hm₀ : 0 < m.toNat := by
    rcases significand_bounds hm he with ⟨-, h, -⟩ | ⟨-, h, -⟩ <;> omega
  obtain ⟨hlow, hhigh⟩ := div_two_pow_size_bounds hm₀
  have hnumber := rational?_decode hm he
  have hvalue : (0 : ℚ) < m.toNat * 2 ^ e.toInt := by positivity
  obtain ⟨f, hst, hf, hf'⟩ := Split.exists_stands_ofFloat hnumber
    (mt (signed_eq_zero_iff _ _).mp hvalue.ne')
  -- the same magnitude twice, each time as a fraction in `[0.5, 1)` and a power of two
  have hsame : |f| * 2 ^ (Split.ofFloat (decode w)).exponent.toInt =
      (m.toNat : ℚ) / 2 ^ m.toNat.size * 2 ^ (e.toInt + m.toNat.size) := by
    rw [← abs_mul_zpow, hst.value, abs_signed, abs_of_pos hvalue, zpow_add₀ two_ne_zero,
      zpow_natCast, mul_comm ((2 : ℚ) ^ e.toInt), ← mul_assoc, div_mul_cancel₀ _ (by positivity)]
  rw [← abs_abs] at hf hf'
  rw [← abs_of_pos (a := (m.toNat : ℚ) / 2 ^ m.toNat.size) (by positivity)] at hlow hhigh
  obtain ⟨hfraction, hexponent⟩ := fraction_unique hlow hhigh hf hf' hsame
  exact ⟨f, hst.fraction, hfraction, hexponent⟩

/-- **The fields of a word and the split of its double agree.**  The fields have a significand and
an exponent if and only if the double is a number other than zero.  Then the significand is that of
a normal number, with its leading bit in place, or that of a subnormal one, under the least
exponent; it is the magnitude of the number in units of its exponent; the split has it over its bit
length as the fraction, and an exponent greater by the bit length; and the sign is the one of the
fields. -/
theorem fields_agree_with_split (w : Word) :
    ((Fields.ofWord w).significand?.isSome = true ∧ (Fields.ofWord w).exponent?.isSome = true ↔
      ∃ p, rational? (decode w) = some p ∧ p ≠ 0) ∧
    ∀ (m : UInt64) (e : Int32), (Fields.ofWord w).significand? = some m →
      (Fields.ofWord w).exponent? = some e →
      ((Fields.ofWord w).floatClass = .normal ∧ 2 ^ 52 ≤ m.toNat ∧ m.toNat < 2 ^ 53 ∨
        (Fields.ofWord w).floatClass = .subnormal ∧ 1 ≤ m.toNat ∧ m.toNat < 2 ^ 52 ∧
          e.toInt = -1074) ∧
      (∃ p, rational? (decode w) = some p ∧ |p| = m.toNat * 2 ^ e.toInt) ∧
      (∃ f, rational? (Split.ofFloat (decode w)).fraction = some f ∧
        |f| = m.toNat / 2 ^ m.toNat.size ∧
        (Split.ofFloat (decode w)).exponent.toInt = e.toInt + m.toNat.size) ∧
      isNegative (decode w) = (Fields.ofWord w).negative := by
  refine ⟨?_, fun m e hm he => ⟨significand_bounds hm he, ⟨_, rational?_decode hm he, ?_⟩,
    exists_fraction_eq hm he, ?_⟩⟩
  · rw [isSome_significand?_iff, exists_rational?_decode_iff]
  · rw [abs_signed, abs_of_nonneg (by positivity)]
  · obtain ⟨-, hlt⟩ := place_of_significand? hm
    exact isNegative_decode (mt (isNaNWord_iff w).mp hlt.not_gt)

/-- The largest subnormal number, below zero, and the smallest normal one: the exponents of the
fields are the same, and those of the splits are not. -/
theorem fields_agree_with_split_seam :
    (Split.ofFloat (decode 0x800FFFFFFFFFFFFF)).exponent.toInt = -1022 ∧
      isNegative (decode 0x800FFFFFFFFFFFFF) = true ∧
      (Split.ofFloat (decode 0x0010000000000000)).exponent.toInt = -1021 := by
  obtain ⟨-, hsub⟩ := fields_agree_with_split 0x800FFFFFFFFFFFFF
  obtain ⟨-, hnormal⟩ := fields_agree_with_split 0x0010000000000000
  obtain ⟨-, -, ⟨-, -, -, hexp⟩, hneg⟩ := hsub 0x000FFFFFFFFFFFFF (-1074) (by decide) (by decide)
  obtain ⟨-, -, ⟨-, -, -, hexp'⟩, -⟩ := hnormal 0x0010000000000000 (-1074) (by decide) (by decide)
  have hsize : (0x000FFFFFFFFFFFFF : UInt64).toNat.size = 52 := by decide
  have hsize' : (0x0010000000000000 : UInt64).toNat.size = 53 := by decide
  rw [hsize] at hexp
  rw [hsize'] at hexp'
  exact ⟨hexp, hneg, hexp'⟩

end FloatWord
