import FloatWord.Proofs.Class
import FloatWord.Proofs.Composing

/-!
# Proofs — Doubling — the powers of two, by loops and by the table

The loops of `twoPow` and `twoPowNeg` run for any number of rounds.  Up to `2 ^ 1023` and down to
`2 ^ -1074` each round is exact (`rational?_twoPow`, `rational?_twoPowNeg`).  One round later the
number is out of range.  Above it is an infinity, and doubling leaves that as it is (`twoPow_of_le`).
Below it is halfway between the smallest double and zero, so it is rounded to zero, which is the even
one, and halving leaves that as it is (`twoPowNeg_of_le`).

`exp2` reaches the same doubles through the table.  After each step the product is a power of two, and
its exponent and what remains make up the exponent asked for (`exists_product_eq`); so the products
stay among the normal numbers, and the last one is that of the loop (`exp2_of_nonneg`,
`exp2_of_neg`).

`powers_exact` is all of this together.
-/

namespace FloatWord

variable {x : Float} {n : Int32} {k : ℕ}

/-! ### Beyond the range -/

/-- Every double of the doubling loop is the power of two, or an infinity in its place. -/
theorem risen_twoPow (k : ℕ) : Risen false (2 ^ (k : ℤ)) (twoPow k) := by
  have htwo : rational? 2 = some (2 ^ (1 : ℤ)) := by rw [rational?_two, zpow_one]
  induction k with
  | zero =>
      have hone := risen rational?_one
      rwa [isNegative_of_pos rational?_one one_pos] at hone
  | succ k ih =>
      have hstep := ih.step (by decide) htwo
      rwa [← zpow_add₀ two_ne_zero] at hstep

theorem twoPow_of_le (hk : 1024 ≤ k) : twoPow k = infinity := by
  obtain ⟨hsign, hexact | ⟨-, hinf⟩⟩ := risen_twoPow k
  · have hlt := Representable.abs_lt ⟨_, hexact⟩
    rw [zpow_natCast, abs_of_pos (by positivity)] at hlt
    exact absurd (pow_le_pow_right₀ one_le_two hk) (not_le.mpr hlt)
  · rw [eq_infinity_of_isInf hinf, hsign]
    rfl

theorem twoPowNeg_of_le (hk : 1075 ≤ k) : twoPowNeg k = 0 := by
  induction k, hk using Nat.le_induction with
  | base =>
      -- the last number is rounded down: the tie goes to the even one
      have hlast := rational?_twoPowNeg (k := 1074) le_rfl
      have hround := isNearest_mul_zpow hlast rational?_half
      rw [← zpow_add₀ two_ne_zero, isNegative_of_pos hlast (by positivity)] at hround
      have hzero := hround.rational?_eq_zero_iff.mpr (abs_of_pos (zpow_pos two_pos _)).le
      exact eq_of_rational? hzero rational?_zero hround.1
  | succ k _ ih =>
      rw [twoPowNeg_succ, ih]
      exact mul_of_rational?_zero rational?_zero rational?_half (by positivity)

/-! ### Along the table -/

theorem ofFloat_of_zpow {e : ℤ} (hx : rational? x = some (2 ^ e)) (he : -1022 ≤ e) :
    FloatClass.ofFloat x = .normal := by
  have hpos : (0 : ℚ) < 2 ^ e := by positivity
  have hle : (2 : ℚ) ^ (-1022 : ℤ) ≤ 2 ^ e := zpow_le_zpow_right₀ one_le_two he
  rw [ofFloat_of_rational? hx, if_neg hpos.ne', abs_of_pos hpos, if_neg (not_lt.mpr hle)]

/-- Fewer places down are not as low. -/
theorem le_directed_of_le {upward : Bool} {t u : ℕ} {m : ℤ} (hm : m ≤ 0) (htu : t ≤ u)
    (hu : m ≤ directed upward u) : m ≤ directed upward t := by
  cases upward with
  | true => exact hm.trans (Int.natCast_nonneg t)
  | false => exact hu.trans (neg_le_neg (Int.ofNat_le.mpr htu))

/-- After any number of steps, the exponent of the product and what remains make up `n`. -/
theorem exists_product_eq (hn : -1022 ≤ n.toInt) (hn' : n.toInt ≤ 1023) (j : ℕ) :
    ∃ e : ℤ, -1022 ≤ e ∧
      rational? (Id.run (decomposeVia times n (steps.take j))).product = some (2 ^ e) ∧
      e + directed (decide (0 ≤ n)) (Id.run (decomposeVia times n (steps.take j))).remaining =
        n.toInt := by
  obtain ⟨d, hd, -, hle, hproduct⟩ :=
    exists_decomposeVia_take (mulExact_times (M := Id)) hn hn' j
  have hrun : Id.run (decomposeVia times n (steps.take j)) = d := congrArg Id.run hd
  rw [hrun]
  refine ⟨_, le_directed_of_le (by decide) (Nat.sub_le _ _) ?_, hproduct, ?_⟩
  · rwa [directed_natAbs]
  · rw [← directed_add, Nat.sub_add_cancel hle, directed_natAbs]

theorem remaining_eq_zero (hn : -1022 ≤ n.toInt) (hn' : n.toInt ≤ 1023) :
    (Id.run (decomposeVia times n steps)).remaining = 0 := by
  obtain ⟨d, hd, hzero, -⟩ := decomposeVia_eq (mulExact_times (M := Id)) hn hn'
  rw [hd]
  exact hzero

theorem exp2_of_nonneg (h : 0 ≤ n) (hn' : n.toInt ≤ 1023) : exp2 n = twoPow n.toNatClampNeg := by
  have hpos : 0 ≤ n.toInt := Int32.le_iff_toInt_le.mp h
  have hcast : (n.toNatClampNeg : ℤ) = n.toInt := by
    rw [← Int32.toNat_toInt, Int.toNat_of_nonneg hpos]
  have hloop := rational?_twoPow (k := n.toNatClampNeg) (by omega)
  rw [hcast] at hloop
  exact eq_of_rational?_of_ne_zero (rational?_exp2 (by omega) hn') hloop (by positivity)

theorem exp2_of_neg (hn : -1022 ≤ n.toInt) (h : ¬ 0 ≤ n) :
    exp2 n = twoPowNeg (-n).toNatClampNeg := by
  have hneg : n.toInt < 0 := not_le.mp fun hle => h (Int32.le_iff_toInt_le.mpr hle)
  have hmin : n ≠ Int32.minValue := fun e => by
    rw [e] at hn
    exact absurd hn (by decide)
  have hcast : ((-n).toNatClampNeg : ℤ) = -n.toInt := by
    rw [← Int32.toNat_toInt, toInt_neg_of_ne hmin, Int.toNat_of_nonneg (by omega)]
  have hloop := rational?_twoPowNeg (k := (-n).toNatClampNeg) (by omega)
  rw [hcast, neg_neg] at hloop
  exact eq_of_rational?_of_ne_zero (rational?_exp2 hn (by omega)) hloop (by positivity)

/-- **The powers of two are exact, and the table agrees with the loops.**  Doubling makes `2 ^ k` up
to `2 ^ 1023` and then the infinity, halving makes `2 ^ -k` down to `2 ^ -1074` and then the positive
zero.  Between -1022 and 1023 the digits of the exponent multiply up to the double of the loop and
nothing of the exponent remains; after each step of the table the product is a normal number and a
power of two, and the remaining exponent is what is missing to the one asked for. -/
theorem powers_exact :
    (∀ k : ℕ, (k ≤ 1023 → rational? (twoPow k) = some (2 ^ k)) ∧
      (1024 ≤ k → twoPow k = infinity)) ∧
    (∀ k : ℕ, (k ≤ 1074 → rational? (twoPowNeg k) = some (2 ^ (-k : ℤ))) ∧
      (1075 ≤ k → twoPowNeg k = 0)) ∧
    ∀ n : Int32, -1022 ≤ n.toInt → n.toInt ≤ 1023 →
      (exp2 n = if 0 ≤ n then twoPow n.toNatClampNeg else twoPowNeg (-n).toNatClampNeg) ∧
      exp2 n = (Id.run (decomposeVia times n steps)).product ∧
      (Id.run (decomposeVia times n steps)).remaining = 0 ∧
      ∀ j, let d := Id.run (decomposeVia times n (steps.take j))
        FloatClass.ofFloat d.product = .normal ∧
          ∃ e : ℤ, rational? d.product = some (2 ^ e) ∧
            e + (if 0 ≤ n then (d.remaining : ℤ) else -d.remaining) = n.toInt := by
  refine ⟨fun k => ⟨fun hk => ?_, twoPow_of_le⟩, fun k => ⟨rational?_twoPowNeg, twoPowNeg_of_le⟩,
    fun n hn hn' => ⟨?_, exp2_eq n, remaining_eq_zero hn hn', fun j => ?_⟩⟩
  · rw [rational?_twoPow hk, zpow_natCast]
  · split
    · rename_i h
      exact exp2_of_nonneg h hn'
    · rename_i h
      exact exp2_of_neg hn h
  · obtain ⟨e, he, hproduct, hsum⟩ := exists_product_eq hn hn' j
    simp only [directed, decide_eq_true_eq] at hsum
    exact ⟨ofFloat_of_zpow hproduct he, e, hproduct, hsum⟩

/-- At both ends of the loops, one round later, and at the lowest exponent of the table. -/
theorem powers_exact_edges :
    rational? (twoPow 1023) = some (2 ^ 1023) ∧ twoPow 1024 = infinity ∧
      rational? (twoPowNeg 1074) = some (2 ^ (-1074 : ℤ)) ∧ twoPowNeg 1075 = 0 ∧
      exp2 (-1022) = twoPowNeg 1022 ∧ exp2 1023 = twoPow 1023 ∧
      (Id.run (decomposeVia times (-1022) steps)).remaining = 0 ∧
      FloatClass.ofFloat (Id.run (decomposeVia times (-1022) (steps.take 3))).product = .normal := by
  obtain ⟨hup, hdown, htable⟩ := powers_exact
  obtain ⟨hlow, -, hzero, hsteps⟩ := htable (-1022) (by decide) (by decide)
  obtain ⟨hhigh, -⟩ := htable 1023 (by decide) (by decide)
  exact ⟨(hup 1023).1 le_rfl, (hup 1024).2 le_rfl, (hdown 1074).1 le_rfl, (hdown 1075).2 le_rfl,
    hlow, hhigh, hzero, (hsteps 3).1⟩

end FloatWord
