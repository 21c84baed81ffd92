import FloatWord.Proofs.Recombining

/-!
# Proofs — Truncating — packing cuts a number down to a double

Where a number lies between two digits, packing keeps the lower ones (`Digits.Floor`).  A fraction
in `[0.5, 1)` is a whole significand: from the smallest normal number up it is in form already, and
below, the shift to the right is a division that drops the remainder
(`Significand.exists_floor`).  A fraction in `[1, 2)` has one digit too many, a zero that the carry
takes off, and so it is packed as its half under the next exponent (`Split.pack_half`).

* `Digits.Floor.isTruncation`: the digits below a number are its truncation.
* `Split.exists_floor`: packing any fraction in `[0.5, 2)` finds the digits below the number.
* `pack_truncates`: the two together, with the ends of the range.
-/

namespace FloatWord

variable {f : Float} {p q : ℚ} {e : Int32}

/-! ### The digits below a number -/

namespace Digits
variable {d d' : Digits}

/-- The digits are the highest ones that are not above `q`. -/
def Floor (d : Digits) (q : ℚ) : Prop := ∀ d' : Digits, d'.value ≤ q ↔ d'.word ≤ d.word

theorem floor_value (d : Digits) : d.Floor d.value := fun _ => value_le_value

/-- The digits on the next place are the only ones to compare with. -/
theorem floor_of_lt (h : d.value ≤ q) (h' : q < (ofWord (d.word + 1)).value) : d.Floor q := by
  refine fun c => ⟨fun hc => ?_, fun hc => (value_le_value.mpr hc).trans h⟩
  have hlt := value_lt_value.mp (hc.trans_lt h')
  rw [word_ofWord] at hlt
  exact Nat.lt_succ_iff.mp hlt

theorem Floor.value_le (h : d.Floor q) : d.value ≤ q := (h d).mpr le_rfl

/-- A number on the ladder is not cut. -/
theorem Floor.eq (h : d.Floor d'.value) : d = d' :=
  value_injective (le_antisymm h.value_le (value_le_value.mpr ((h d').mp le_rfl)))

theorem Floor.infinityPlace_le_iff (h : d.Floor q) : infinityPlace ≤ d.word ↔ 2 ^ 1024 ≤ q := by
  rw [← value_ofWord_infinityPlace, h, word_ofWord]

theorem Floor.word_eq_zero (h : d.Floor q) (hq : q < 2 ^ (-1074 : ℤ)) : d.word = 0 := by
  rw [← value_ofWord_one, ← not_le, h, word_ofWord] at hq
  omega

/-- The digits below a number are its truncation. -/
theorem Floor.isTruncation (h : d.Floor q) : IsTruncation q (ofDigits false d) := by
  refine ⟨isNegative_ofDigits false d, ?_⟩
  split
  · rename_i hover
    rw [isInf_ofDigits, decide_eq_true (h.infinityPlace_le_iff.mpr hover)]
  · rename_i hover
    have hlt : d.word < infinityPlace := not_le.mp (mt h.infinityPlace_le_iff.mp hover)
    refine ⟨d.value, rational?_ofDigits hlt, h.value_le, fun z w hz hw => ?_⟩
    rcases le_or_gt w 0 with hneg | hpos
    · exact hneg.trans d.value_nonneg
    · obtain ⟨c, hc, -⟩ := representable_iff.mp ⟨z, hz⟩
      rw [abs_of_pos hpos] at hc
      rw [← hc] at hw ⊢
      exact value_le_value.mpr ((h c).mp hw)

end Digits

/-! ### One significand -/

/-- The place of a significand is the one of the highest digits that are not above it. -/
theorem Significand.exists_floor {n : ℕ} (hn : 2 ^ 52 ≤ n) (hn' : n < 2 ^ 53) (e : Int32) :
    ∃ d : Digits, d.Floor (n * 2 ^ (e.toInt - 53)) ∧
      toWord ⟨UInt64.ofNat n, e⟩ = (ofDigits false d).toBits := by
  suffices h : ∃ d : Digits, d.Floor (n * 2 ^ (e.toInt - 53)) ∧
      (toWord ⟨UInt64.ofNat n, e⟩).toNat = min d.word infinityPlace by
    obtain ⟨d, hd, hword⟩ := h
    refine ⟨d, hd, UInt64.toNat_inj.mp ?_⟩
    rw [hword, toNat_toBits_ofDigits, if_neg Bool.false_ne_true, Nat.zero_add]
  rcases lt_or_ge e.toInt (-1021) with he | he
  · obtain ⟨k, hk⟩ : ∃ k : ℕ, -1021 - e.toInt = k := Int.eq_ofNat_of_zero_le (by omega)
    have hpow : 2 ^ 1 ≤ 2 ^ k := Nat.pow_le_pow_right two_pos (by omega)
    have hplace : n / 2 ^ k < 2 ^ 52 := by
      rw [Nat.div_lt_iff_lt_mul (Nat.two_pow_pos k)]
      omega
    -- in units of the smallest double the shift is a division of naturals
    have hunits : (n : ℚ) * 2 ^ (e.toInt - 53) = n / 2 ^ k * 2 ^ (-1074 : ℤ) := by
      rw [show e.toInt - 53 = -1074 - k by omega, zpow_sub₀ two_ne_zero, zpow_natCast]
      ring
    obtain ⟨hfloor, hceil⟩ := div_two_pow_bounds n k
    rw [Int.cast_natCast] at hfloor hceil
    refine ⟨.ofWord (n / 2 ^ k), Digits.floor_of_lt ?_ ?_, ?_⟩
    · rw [Digits.value_ofWord_of_le hplace.le, hunits]
      gcongr
    · rw [Digits.word_ofWord, Digits.value_ofWord_of_le hplace, hunits, Nat.cast_succ]
      gcongr
    · rw [toNat_toWord_of_low _ he, toNat_ofNat (by omega), hk, Int.toNat_natCast,
        Digits.word_ofWord, min_eq_left (by rw [infinityPlace]; omega)]
  · obtain ⟨d, hvalue, hword⟩ := exists_value_eq_of_normal hn hn' he
    exact ⟨d, hvalue ▸ d.floor_value, hword⟩

namespace Split

/-! ### A fraction, and its half -/

theorem exists_floor_of_lt_one (hf : rational? f = some p) (hp : 1 / 2 ≤ p) (hp' : p < 1)
    (e : Int32) :
    ∃ d : Digits, d.Floor (p * 2 ^ e.toInt) ∧
      ∀ sign, pack sign ⟨f, e⟩ = sign ||| (ofDigits false d).toBits := by
  obtain ⟨m, hpack, hlow, hhigh, hm⟩ := exists_pack_eq hf hp hp' e
  obtain ⟨d, hd, hword⟩ := Significand.exists_floor hlow hhigh e
  rw [mul_zpow_eq_of_mul_eq hm] at hd
  exact ⟨d, hd, fun sign => by rw [hpack, hword]⟩

theorem rational?_mul_half (hf : rational? f = some p) (hp : 1 ≤ p) :
    rational? (f * 0.5) = some (p / 2) := by
  have hhalf : p * 2 ^ (-1 : ℤ) = p / 2 := by rw [zpow_neg_one, div_eq_mul_inv]
  have hrep : Representable (p * 2 ^ (-1 : ℤ)) := by
    refine Representable.mul_zpow_of_le ⟨f, hf⟩ (by decide) (minNormal_le_of_half_le ?_)
    rw [hhalf]
    linarith
  rw [rational?_mul hf rational?_half hrep, hhalf]

/-- The significand of a fraction in `[1, 2)` is twice that of its half. -/
theorem exists_significand_eq_two_mul (hf : rational? f = some p) (hp : 1 ≤ p) (hp' : p < 2)
    (e : Int32) :
    ∃ m : ℕ, Id.run (significandVia times ⟨f, e⟩) = ⟨UInt64.ofNat (2 * m), e⟩ ∧
      Id.run (significandVia times ⟨f * 0.5, e + 1⟩) = ⟨UInt64.ofNat m, e + 1⟩ ∧
      2 ^ 52 ≤ m ∧ m < 2 ^ 53 := by
  obtain ⟨m, hhalf, hlow, hhigh, hm⟩ :=
    exists_significand_eq (rational?_mul_half hf hp) (by linarith) (by linarith) (e + 1)
  have htwice : p * 2 ^ (53 : ℤ) = (2 * m : ℕ) := by
    rw [Nat.cast_mul, ← hm, ← zpow_natCast]
    push_cast
    ring
  have hrep : Representable (p * 2 ^ (53 : ℤ)) := by
    refine Representable.mul_zpow ⟨f, hf⟩ (.inl (by decide)) ?_
    calc |p * 2 ^ (53 : ℤ)| = p * 2 ^ (53 : ℤ) := abs_of_nonneg (by positivity)
      _ < 2 * 2 ^ (53 : ℤ) := by gcongr
      _ = 2 ^ (54 : ℤ) := (zpow_one_add₀ two_ne_zero 53).symm
      _ < 2 ^ 1024 := zpow_lt_two_pow_1024 (by decide)
  have hproduct : rational? (f * two53) = some ((2 * m : ℕ) : ℚ) := by
    rw [rational?_mul hf rational?_two53 hrep, htwice]
  have hrun : significandVia times ⟨f, e⟩ = (pure ⟨UInt64.ofNat (2 * m), e⟩ : Id Significand) :=
    significandVia_of_natCast (s := ⟨f, e⟩) rfl hproduct (by omega) (by omega)
  exact ⟨m, congrArg Id.run hrun, hhalf, hlow, hhigh⟩

/-- A fraction in `[1, 2)` is packed as its half under the next exponent. -/
theorem pack_half (hf : rational? f = some p) (hp : 1 ≤ p) (hp' : p < 2) (e : Int32) (sign : Word) :
    pack sign ⟨f, e⟩ = pack sign ⟨f * 0.5, e + 1⟩ := by
  obtain ⟨m, hrun, hhalf, hlow, hhigh⟩ := exists_significand_eq_two_mul hf hp hp' e
  rw [pack_eq, pack_eq, hrun, hhalf, Significand.carry_two_mul hlow hhigh,
    Significand.carry_eq_self hhigh]

/-- With a next exponent for the carry, packing takes no integer step out of range. -/
theorem packChecked_of_lt_two (hf : rational? f = some p) (hp : 1 / 2 ≤ p) (hp' : p < 2)
    (he : 1 ≤ p → e ≠ Int32.maxValue) (sign : Word) :
    packChecked sign ⟨f, e⟩ = .ok (pack sign ⟨f, e⟩) := by
  rcases lt_or_ge p 1 with hlt | hge
  · exact packChecked_of_lt_one hf hp hlt e sign
  · obtain ⟨m, hrun, -⟩ := exists_significand_eq_two_mul hf hge hp' e
    refine packVia_times ?_ sign
    rw [hrun]
    exact fun h => he hge h.2

/-- Packing a fraction in `[0.5, 2)` finds the highest digits that are not above the number. -/
theorem exists_floor (hf : rational? f = some p) (hp : 1 / 2 ≤ p) (hp' : p < 2)
    (he : 1 ≤ p → (e + 1).toInt = e.toInt + 1) :
    ∃ d : Digits, d.Floor (p * 2 ^ e.toInt) ∧
      ∀ sign, pack sign ⟨f, e⟩ = sign ||| (ofDigits false d).toBits := by
  rcases lt_or_ge p 1 with hlt | hge
  · exact exists_floor_of_lt_one hf hp hlt e
  · obtain ⟨d, hd, hpack⟩ :=
      exists_floor_of_lt_one (rational?_mul_half hf hge) (by linarith) (by linarith) (e + 1)
    have hsame : p / 2 * 2 ^ (e + 1).toInt = p * 2 ^ e.toInt := by
      rw [he hge, zpow_add_one₀ two_ne_zero]
      ring
    rw [hsame] at hd
    exact ⟨d, hd, fun sign => by rw [pack_half hf hge hp', hpack]⟩

end Split

/-- **Packing truncates.**  The word of a fraction in `[0.5, 2)` under an exponent is, apart from
the sign, the word of the largest double that is not above their product: an infinity from
`2 ^ 1024` on, a zero below the smallest double, and the number itself if it is a double.  A
fraction from 1 up is packed as its half under the next exponent, which has to exist; where it does,
no integer step goes out of range. -/
theorem pack_truncates (hf : rational? f = some p) (hp : 1 / 2 ≤ p) (hp' : p < 2)
    (he : 1 ≤ p → e ≠ Int32.maxValue) :
    ∃ y, (∀ sign, Split.pack sign ⟨f, e⟩ = sign ||| y.toBits) ∧
      (∀ sign, Split.packChecked sign ⟨f, e⟩ = .ok (sign ||| y.toBits)) ∧
      IsTruncation (p * 2 ^ e.toInt) y ∧
      (2 ^ 1024 ≤ p * 2 ^ e.toInt → y.toBits = infinityWord) ∧
      (p * 2 ^ e.toInt < 2 ^ (-1074 : ℤ) → y.toBits = 0) ∧
      (∀ z, rational? z = some (p * 2 ^ e.toInt) → y = z) ∧
      (1 ≤ p → rational? (f * 0.5) = some (p / 2) ∧ (e + 1).toInt = e.toInt + 1 ∧
        ∀ sign, Split.pack sign ⟨f, e⟩ = Split.pack sign ⟨f * 0.5, e + 1⟩) := by
  obtain ⟨d, hd, hpack⟩ := Split.exists_floor hf hp hp' fun h => Significand.toInt_add_one (he h)
  have hpos : 0 < p * 2 ^ e.toInt := by positivity
  refine ⟨ofDigits false d, hpack, fun sign => ?_, hd.isTruncation, fun hover => ?_,
    fun hunder => ?_, fun z hz => ?_, fun hone => ⟨Split.rational?_mul_half hf hone,
      Significand.toInt_add_one (he hone), Split.pack_half hf hone hp' e⟩⟩
  · rw [← hpack]
    exact Split.packChecked_of_lt_two hf hp hp' he sign
  · rw [ofDigits_of_le (hd.infinityPlace_le_iff.mpr hover)]
    decide
  · rw [ofDigits_of_word_eq_zero (hd.word_eq_zero hunder)]
    decide
  · obtain ⟨c, hc, -⟩ := representable_iff.mp ⟨z, hz⟩
    have hz' : z = ofDigits false c := by
      rw [eq_ofDigits_of_abs_eq hz hc.symm, isNegative_of_pos hz hpos]
    rw [abs_of_pos hpos] at hc
    rw [← hc] at hd
    rw [hz', hd.eq]

/-- Past the top, half the smallest double, the smallest double, and the carry into the smallest
normal number. -/
theorem pack_truncates_edges :
    Split.pack signMask ⟨1, 1024⟩ = signMask ||| infinityWord ∧
      Split.pack signMask ⟨0.5, -1074⟩ = signMask ∧
      Split.pack 0 ⟨0.5, -1073⟩ = (twoPowNeg 1074).toBits ∧
      Split.pack 0 ⟨1, -1022⟩ = Split.pack 0 ⟨1 * 0.5, -1021⟩ := by
  have hone := fun e => pack_truncates (e := e) rational?_one (by norm_num) (by norm_num)
  have hhalf := fun e => pack_truncates (e := e) rational?_half (by norm_num) (by norm_num)
    fun h => absurd h (by norm_num)
  obtain ⟨y, hover, -, -, hinf, -⟩ := hone 1024 fun _ => by decide
  obtain ⟨z, hunder, -, -, -, hzero, -⟩ := hhalf (-1074)
  obtain ⟨u, hleast, -, -, -, -, hexact, -⟩ := hhalf (-1073)
  obtain ⟨-, -, -, -, -, -, -, hcarry⟩ := hone (-1022) fun _ => by decide
  have hsmallest : u = twoPowNeg 1074 := by
    refine hexact _ ?_
    rw [rational?_twoPowNeg le_rfl, ← zpow_add₀ two_ne_zero]
    rfl
  refine ⟨?_, ?_, ?_, (hcarry le_rfl).2.2 0⟩
  · rw [hover, hinf (by rw [one_mul]; exact (zpow_natCast 2 1024).ge)]
  · rw [hunder, hzero ?_, UInt64.or_zero]
    rw [← zpow_add₀ two_ne_zero]
    exact zpow_lt_zpow_right₀ one_lt_two (by decide)
  · rw [hleast, hsmallest, UInt64.zero_or]

end FloatWord
