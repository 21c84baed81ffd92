import FloatWord.Packing
import FloatWord.Proofs.Class
import FloatWord.Proofs.Sum

/-!
# Proofs — Rounding — the nearest integer by one addition

From `2 ^ 52` to `2 ^ 53` the doubles are the integers, and a significand is even if its integer
is; so there the nearest double is the nearest integer (`IsNearest.rational?_eq_natCast`).  A
magnitude below `2 ^ 52` is taken there by adding `2 ^ 52`, an even integer, and what comes out is
taken back without rounding (`rational?_add_sub_two52`).  From `2 ^ 52` on a double is an integer
already, and the guard stops before the addition (`roundTiesEven_guard`).  The sign is lent to the
result in the end, and so it is there on a zero as well (`exists_rational?_roundTiesEven`).
-/

namespace FloatWord

variable {x y : Float} {p q : ℚ}

/-! ### Where the doubles are the integers -/

theorem rational?_two52 : rational? two52 = some (2 ^ (52 : ℤ)) :=
  rational?_twoPow (k := 52) (by decide)

/-- The integers from `2 ^ 52` to `2 ^ 53` have digits, with an even significand if they are even. -/
theorem Digits.exists_value_eq_natCast {r : ℕ} (hr : 2 ^ 52 ≤ r) (hr' : r ≤ 2 ^ 53) :
    ∃ d : Digits, d.value = r ∧ (Even r → Even d.significand) := by
  rcases hr'.lt_or_eq with hlt | rfl
  · exact ⟨⟨r, 0, hlt, by decide, .inl hr⟩, by rw [value, zpow_zero, mul_one], id⟩
  · refine ⟨⟨2 ^ 52, 1, by decide, by decide, .inl le_rfl⟩, ?_, fun _ => (by decide : Even (2 ^ 52))⟩
    rw [value, zpow_one]
    norm_num

/-- There, rounding to a double is rounding to an integer. -/
theorem IsNearest.rational?_eq_natCast {s : Bool} {r : ℕ} (h : IsNearest s q y)
    (hs : signed s |q| = q) (hq : 2 ^ 52 ≤ q) (hr : IsNearestInt q r) (hr' : r ≤ 2 ^ 53) :
    rational? y = some (r : ℚ) := by
  have hpos : 0 < q := lt_of_lt_of_le (by norm_num) hq
  have hge : (2 ^ 52 : ℤ) ≤ r := hr.ge_of_ge (by exact_mod_cast hq)
  obtain ⟨d, hd, heven⟩ := Digits.exists_value_eq_natCast (by exact_mod_cast hge) hr'
  have hnearest : d.Nearest q := by
    refine Digits.nearest_of_isNearestInt (t := 0) ?_ ?_ heven (.inr ?_)
    · rwa [zpow_zero, div_one]
    · rw [hd, zpow_zero, mul_one]
    · rwa [zpow_zero, div_one]
  have hlt : d.word < infinityPlace := by
    rw [d.word_lt_infinityPlace_iff, hd]
    calc (r : ℚ) ≤ 2 ^ 53 := by exact_mod_cast hr'
      _ < 2 ^ 1024 := pow_lt_pow_right₀ one_lt_two (by decide)
  have hsign : s = false := by rw [eq_of_signed_abs hs hpos.ne', decide_eq_false hpos.not_gt]
  rw [hsign] at h
  rw [h.unique (isNearest_ofDigits hpos.le hnearest false), rational?_ofDigits hlt, hd]
  rfl

/-! ### Up and down again -/

/-- Adding `2 ^ 52` rounds a smaller magnitude to an integer, and taking it away again is exact. -/
theorem rational?_add_sub_two52 {n : ℕ} (hy : rational? y = some p) (hp : 0 ≤ p)
    (hp' : p < 2 ^ 52) (hn : IsNearestInt p n) :
    rational? (y + two52 - two52) = some (n : ℚ) := by
  have hpow : (2 : ℚ) ^ (52 : ℤ) = (2 ^ 52 : ℤ) := by norm_num
  have hcast : ((n + 2 ^ 52 : ℕ) : ℤ) = n + 2 ^ 52 := by push_cast; rfl
  have hle : (n : ℤ) ≤ 2 ^ 52 := hn.le_of_le (by exact_mod_cast hp'.le)
  have hmoved := hn.add_even (k := 2 ^ 52) (by decide)
  rw [← hpow, ← hcast] at hmoved
  obtain ⟨s, hs, hround⟩ := isNearest_add hy rational?_two52
  have hsum := hround.rational?_eq_natCast hs (by rw [hpow]; push_cast; linarith) hmoved (by omega)
  have hdiff : ((n + 2 ^ 52 : ℕ) : ℚ) - 2 ^ (52 : ℤ) = n := by
    rw [hpow]
    push_cast
    ring
  have hrep : Representable (n : ℚ) := representable_natCast (by omega)
  rw [← hdiff] at hrep ⊢
  exact rational?_sub hsum rational?_two52 hrep

/-! ### The guard -/

/-- From `2 ^ 52` on the guard of the rounding stops before the addition. -/
theorem roundTiesEven_guard (hx : rational? x = some q) (hq : 2 ^ 52 ≤ |q|) :
    (x == 0 || !(magnitude x < two52)) = true := by
  have hlt := lt_iff (rational?_magnitude hx) rational?_two52
  have hmag : decide (magnitude x < two52) = false := by
    rw [decide_eq_false_iff_not, hlt, not_lt]
    exact_mod_cast hq
  rw [hmag, Bool.not_false, Bool.or_true]

theorem roundTiesEven_eq_self (hx : rational? x = some q) (hq : 2 ^ 52 ≤ |q|) :
    roundTiesEven x = x :=
  if_pos (roundTiesEven_guard hx hq)

theorem roundTiesEven_of_isSpecial (hx : IsSpecial x) : roundTiesEven x = x := by
  refine if_pos ?_
  rcases hx with hx | hx | hx
  · rw [eq_notANumber hx]
    decide +kernel
  · rw [eq_infinity_of_isInf hx]
    cases isNegative x <;> decide +kernel
  · rw [(beq_iff hx rational?_zero).mpr rfl, Bool.true_or]

theorem roundTiesEven_of_lt (hx : rational? x = some q) (hq : q ≠ 0) (hlt : |q| < 2 ^ 52) :
    roundTiesEven x = copySign (magnitude x + two52 - two52) x := by
  have hmag : decide (magnitude x < two52) = true := by
    rw [decide_eq_true_iff, lt_iff (rational?_magnitude hx) rational?_two52]
    exact_mod_cast hlt
  rw [roundTiesEven, hmag, beq_zero_eq_false hx hq]
  rfl

/-! ### The integer and its sign -/

/-- The magnitude is rounded, and the result lent the sign. -/
theorem exists_rational?_roundTiesEven (hx : rational? x = some q) :
    ∃ n : ℕ, IsNearestInt |q| n ∧
      rational? (roundTiesEven x) = some (signed (isNegative x) n) ∧
      isNegative (roundTiesEven x) = isNegative x := by
  by_cases hq : q = 0
  · rw [hq] at hx ⊢
    rw [roundTiesEven_of_isSpecial (.inr (.inr hx)), abs_zero]
    exact ⟨0, isNearestInt_intCast 0, by rw [hx, Nat.cast_zero, signed_zero], rfl⟩
  rcases lt_or_ge |q| (2 ^ 52) with hlt | hge
  · obtain ⟨n, hn⟩ := exists_isNearestInt |q|
    obtain ⟨n, rfl⟩ := Int.eq_ofNat_of_zero_le (hn.ge_of_ge (k := 0) (by positivity))
    have hround := rational?_add_sub_two52 (rational?_magnitude hx) (abs_nonneg q) hlt hn
    rw [roundTiesEven_of_lt hx hq hlt]
    refine ⟨n, hn, ?_, isNegative_copySign (isNaN_of_rational? hround) x⟩
    rw [rational?_copySign hround, Nat.abs_cast]
  · have hrep : Representable |q| := representable_abs_iff.mpr ⟨x, hx⟩
    obtain ⟨n, hn⟩ := hrep.exists_natCast_eq hge
    have hsign := signed_isNegative hx
    rw [hn] at hsign ⊢
    rw [roundTiesEven_eq_self hx hge]
    exact ⟨n, isNearestInt_intCast n, by rw [hx, hsign], rfl⟩

/-- Rounding prefers no sign. -/
theorem IsNearestInt.signed {n : ℕ} (h : IsNearestInt p n) (s : Bool) :
    ∃ k : ℤ, IsNearestInt (signed s p) k ∧ (k : ℚ) = FloatWord.signed s n := by
  cases s with
  | false => exact ⟨n, h, rfl⟩
  | true => exact ⟨-n, h.neg, by rw [Int.cast_neg]; rfl⟩

/-- **Rounding finds the nearest integer.**  A finite double is rounded to the one integer nearest to
its number, the even one of two at the same distance, and the result has the sign of the double,
also where it is a zero.  From `2 ^ 52` on a double stays what it is, and so does an infinity; NaN
gives NaN. -/
theorem roundTiesEven_nearest :
    (∀ x q, rational? x = some q →
      ∃ n : ℤ, (∀ k, IsNearestInt q k ↔ k = n) ∧
        rational? (roundTiesEven x) = some (n : ℚ) ∧
        isNegative (roundTiesEven x) = isNegative x ∧
        (n = 0 → roundTiesEven x = if isNegative x then -0 else 0) ∧
        (2 ^ 52 ≤ |q| → roundTiesEven x = x)) ∧
    (∀ x : Float, x.isInf = true → roundTiesEven x = x) ∧
    ∀ x : Float, x.isNaN = true → (roundTiesEven x).isNaN = true := by
  refine ⟨fun x q hx => ?_, fun x hx => roundTiesEven_of_isSpecial (.inr (.inl hx)),
    fun x hx => ?_⟩
  · obtain ⟨m, hm, hround, hsign⟩ := exists_rational?_roundTiesEven hx
    obtain ⟨n, hn, hcast⟩ := hm.signed (isNegative x)
    rw [signed_isNegative hx] at hn
    rw [← hcast] at hround
    refine ⟨n, fun k => ⟨fun hk => hk.unique hn, fun hk => hk ▸ hn⟩, hround, hsign, fun hzero => ?_,
      roundTiesEven_eq_self hx⟩
    rw [hzero, Int.cast_zero] at hround
    cases h : isNegative x with
    | true => exact eq_of_rational? hround (rational?_neg rational?_zero) (hsign.trans h)
    | false => exact eq_of_rational? hround rational?_zero (hsign.trans h)
  · rw [roundTiesEven_of_isSpecial (.inl hx), hx]

/-- A tie, a negative number that is rounded to zero, the negative zero, the first double that the
guard stops, and what is no number. -/
theorem roundTiesEven_nearest_edges :
    rational? (roundTiesEven 2.5) = some 2 ∧ roundTiesEven (-0.5) = -0 ∧ roundTiesEven (-0) = -0 ∧
      roundTiesEven two52 = two52 ∧ roundTiesEven (-infinity) = -infinity ∧
      (roundTiesEven notANumber).isNaN = true := by
  obtain ⟨hnumber, hinf, hnan⟩ := roundTiesEven_nearest
  have htie : rational? 2.5 = some (5 / 2) := by
    let d : Digits := ⟨5 * 2 ^ 50, -51, by decide, by decide, .inl (by decide)⟩
    have hdigits : (2.5 : Float) = ofDigits false d := by decide
    rw [hdigits, rational?_ofDigits (by decide)]
    show some (((5 * 2 ^ 50 : ℕ) : ℚ) * 2 ^ (-51 : ℤ)) = _
    norm_num
  obtain ⟨n, hn, htwo, -⟩ := hnumber 2.5 _ htie
  obtain ⟨m, hm, -, -, hsmall, -⟩ := hnumber (-0.5) _ (rational?_neg rational?_half)
  obtain ⟨k, hk, -, -, hzero, -⟩ := hnumber (-0) _ (rational?_neg rational?_zero)
  obtain ⟨-, -, -, -, -, hguard⟩ := hnumber two52 _ rational?_two52
  have hn' : (2 : ℤ) = n := (hn 2).mp ⟨by norm_num [abs_of_pos], fun _ => by decide⟩
  have hm' : (0 : ℤ) = m := (hm 0).mp ⟨by norm_num, fun _ => by decide⟩
  have hk' : (0 : ℤ) = k := (hk 0).mp ⟨by norm_num, fun _ => by decide⟩
  refine ⟨?_, ?_, ?_, hguard ?_, hinf _ (by decide), hnan _ (by decide)⟩
  · rw [htwo, ← hn']
    rfl
  · rw [hsmall hm'.symm]
    decide
  · rw [hzero hk'.symm]
    decide
  · rw [abs_of_pos (by positivity)]
    exact (zpow_natCast 2 52).ge

end FloatWord
