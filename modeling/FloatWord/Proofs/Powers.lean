import FloatWord.PowerOfTwo
import FloatWord.Proofs.Representable

/-!
# Proofs — Powers — the powers of two, and what the table of steps adds up to

`twoPow` and `twoPowNeg` are the powers of two that they say they are, down to the smallest
positive double (`rational?_twoPow`, `rational?_twoPowNeg`).  The table `steps` is the binary
places from the highest to the lowest (`binarySteps`), so induction on the number of places is
induction over the loops that fold it, on the way (`exists_foldlM_take_binarySteps`) and at the end
(`exists_foldlM_binarySteps`).  The first of these is `decomposeVia`, and with it `exp2Via_eq`
holds: the product over the digits of `n` is `2 ^ n`.

None of this depends on how a product is rounded.  `MulExact` is what is asked of a
multiplication: that it is the machine's where the product of two nonzero doubles is a double.
-/

namespace FloatWord

variable {M : Type → Type} [Monad M] {mul : Float → Float → M Float}
variable {x y : Float} {p q : ℚ}

/-! ### Multiplications that are exact where they can be -/

/-- A multiplication that is the machine's where nothing has to be rounded. -/
def MulExact (mul : Float → Float → M Float) : Prop :=
  ∀ a b, ExactProduct a b → rational? a ≠ some 0 → rational? b ≠ some 0 → mul a b = pure (a * b)

theorem mulExact_times : MulExact (times : Float → Float → M Float) := fun _ _ _ _ _ => rfl

open Classical in
/-- The multiplication that gives up where the product is not a double. -/
noncomputable def checkedTimes (a b : Float) : Option Float :=
  if ExactProduct a b then some (a * b) else none

theorem mulExact_checkedTimes : MulExact checkedTimes := fun _ _ h _ _ => if_pos h

/-- An exact product, as a number. -/
theorem MulExact.exists_eq (h : MulExact mul) (hx : rational? x = some p)
    (hy : rational? y = some q) (hp : 0 < p) (hq : 0 < q) (hpq : Representable (p * q)) :
    ∃ z, mul x y = pure z ∧ rational? z = some (p * q) := by
  refine ⟨x * y, h x y ⟨p, q, hx, hy, hpq⟩ ?_ ?_, rational?_mul hx hy hpq⟩
  · rw [hx]
    exact fun e => hp.ne' (Option.some.inj e)
  · rw [hy]
    exact fun e => hq.ne' (Option.some.inj e)

/-! ### The powers of two -/

theorem rational?_one : rational? 1 = some 1 :=
  rational?_toFloat (n := 1) (by decide)

theorem rational?_two : rational? 2 = some 2 :=
  rational?_toFloat (n := 2) (by decide)

theorem rational?_half : rational? 0.5 = some (2 ^ (-1 : ℤ)) := by
  let d : Digits := ⟨2 ^ 52, -53, by decide, by decide, .inl le_rfl⟩
  have hd : (0.5 : Float) = ofDigits false d := by decide
  have hv : d.value = 2 ^ (-1 : ℤ) := by
    show ((2 ^ 52 : ℕ) : ℚ) * 2 ^ (-53 : ℤ) = _
    rw [Nat.cast_pow, Nat.cast_ofNat, ← zpow_natCast, ← zpow_add₀ two_ne_zero]
    rfl
  rw [hd, rational?_ofDigits (by decide), hv]
  rfl

theorem rational?_twoPow {k : ℕ} (hk : k ≤ 1023) : rational? (twoPow k) = some (2 ^ (k : ℤ)) := by
  induction k with
  | zero => exact rational?_one
  | succ k ih =>
      have hsucc : (2 : ℚ) ^ ((k + 1 : ℕ) : ℤ) = 2 ^ (k : ℤ) * 2 := by
        rw [Nat.cast_succ, zpow_add_one₀ two_ne_zero]
      rw [twoPow_succ, hsucc]
      refine rational?_mul (ih (by omega)) rational?_two ?_
      rw [← hsucc]
      exact representable_zpow (by omega) (by omega)

theorem rational?_twoPowNeg {k : ℕ} (hk : k ≤ 1074) :
    rational? (twoPowNeg k) = some (2 ^ (-k : ℤ)) := by
  induction k with
  | zero => exact rational?_one
  | succ k ih =>
      have hsucc : (2 : ℚ) ^ (-(k + 1 : ℕ) : ℤ) = 2 ^ (-k : ℤ) * 2 ^ (-1 : ℤ) := by
        rw [← zpow_add₀ two_ne_zero, Nat.cast_succ, neg_add]
      rw [twoPowNeg_succ, hsucc]
      refine rational?_mul (ih (by omega)) rational?_half ?_
      rw [← hsucc]
      exact representable_zpow (by omega) (by omega)

/-! ### Exponents as machine integers -/

theorem toInt_add_of_bounds {a b : Int32} (h : -2 ^ 31 ≤ a.toInt + b.toInt)
    (h' : a.toInt + b.toInt < 2 ^ 31) : (a + b).toInt = a.toInt + b.toInt := by
  rw [Int32.toInt_add, Int.bmod_eq_of_le (by omega) (by omega)]

theorem toInt_sub_of_bounds {a b : Int32} (h : -2 ^ 31 ≤ a.toInt - b.toInt)
    (h' : a.toInt - b.toInt < 2 ^ 31) : (a - b).toInt = a.toInt - b.toInt := by
  rw [Int32.toInt_sub, Int.bmod_eq_of_le (by omega) (by omega)]

theorem toInt_min (a b : Int32) : (min a b).toInt = min a.toInt b.toInt := by
  show (if a ≤ b then a else b).toInt = _
  by_cases h : a ≤ b
  · rw [if_pos h, min_eq_left (Int32.le_iff_toInt_le.mp h)]
  · rw [if_neg h, min_eq_right (le_of_not_ge (mt Int32.le_iff_toInt_le.mpr h))]

theorem toInt_max (a b : Int32) : (max a b).toInt = max a.toInt b.toInt := by
  show (if a ≤ b then b else a).toInt = _
  by_cases h : a ≤ b
  · rw [if_pos h, max_eq_right (Int32.le_iff_toInt_le.mp h)]
  · rw [if_neg h, max_eq_left (le_of_not_ge (mt Int32.le_iff_toInt_le.mpr h))]

theorem toNatClampNeg_abs {n : Int32} (hn : -2 ^ 31 < n.toInt) :
    n.abs.toNatClampNeg = n.toInt.natAbs := by
  have hmin : n.toBitVec ≠ BitVec.intMin 32 := fun e => by
    rw [Int32.toInt, e] at hn
    exact absurd hn (by decide)
  have habs : n.abs.toInt = n.toInt.natAbs := BitVec.toInt_abs_eq_natAbs_of_ne_intMin hmin
  rw [← Int32.toNat_toInt, habs, Int.toNat_natCast]

/-! ### The table of steps -/

/-- The lowest `k` binary places, from the highest to the lowest. -/
def binarySteps : ℕ → List Step
  | 0 => []
  | k + 1 => Step.ofShift (2 ^ k) :: binarySteps k

theorem steps_eq : steps = binarySteps 10 := rfl

theorem shift_ofShift (k : ℕ) : (Step.ofShift k).shift = k := rfl

theorem two_pow_le {k : ℕ} (hk : k < 10) : 2 ^ k ≤ 512 :=
  Nat.pow_le_pow_right (by decide) (Nat.lt_succ_iff.mp hk)

theorem rational?_up {k : ℕ} (hk : k < 10) :
    rational? (Step.ofShift (2 ^ k)).up = some (2 ^ ((2 ^ k : ℕ) : ℤ)) :=
  rational?_twoPow ((two_pow_le hk).trans (by decide))

theorem rational?_down {k : ℕ} (hk : k < 10) :
    rational? (Step.ofShift (2 ^ k)).down = some (2 ^ (-(2 ^ k : ℕ) : ℤ)) :=
  rational?_twoPowNeg ((two_pow_le hk).trans (by decide))

variable [LawfulMonad M]

theorem length_binarySteps (n : ℕ) : (binarySteps n).length = n := by
  induction n with
  | zero => rfl
  | succ n ih => rw [binarySteps, List.length_cons, ih]

/-- A loop over the first `j` places of the table: if the step at each place leaves an invariant
for the places below it, the loop stops with the invariant for the places that remain. -/
theorem exists_foldlM_take_binarySteps {σ : Type} {step : σ → Step → M σ} {P : ℕ → σ → Prop}
    {n : ℕ} (h : ∀ k < n, ∀ a, P (k + 1) a → ∃ b, step a (Step.ofShift (2 ^ k)) = pure b ∧ P k b)
    (j : ℕ) {a : σ} (ha : P n a) :
    ∃ b, ((binarySteps n).take j).foldlM step a = pure b ∧ P (n - j) b := by
  induction n generalizing a j with
  | zero => exact ⟨a, by rw [binarySteps, List.take_nil, List.foldlM_nil], by rwa [Nat.zero_sub]⟩
  | succ n ih =>
      cases j with
      | zero => exact ⟨a, rfl, ha⟩
      | succ j =>
          obtain ⟨b, hb, hPb⟩ := h n (Nat.lt_succ_self n) a ha
          obtain ⟨c, hc, hPc⟩ := ih (fun k hk => h k (Nat.lt_succ_of_lt hk)) j hPb
          refine ⟨c, ?_, by rwa [Nat.add_sub_add_right]⟩
          rw [binarySteps, List.take_succ_cons, List.foldlM_cons, hb, pure_bind, hc]

/-- The whole loop ends with the invariant for no place at all. -/
theorem exists_foldlM_binarySteps {σ : Type} {step : σ → Step → M σ} {P : ℕ → σ → Prop} {n : ℕ}
    (h : ∀ k < n, ∀ a, P (k + 1) a → ∃ b, step a (Step.ofShift (2 ^ k)) = pure b ∧ P k b) {a : σ}
    (ha : P n a) : ∃ b, (binarySteps n).foldlM step a = pure b ∧ P 0 b := by
  have hrun := exists_foldlM_take_binarySteps h n ha
  rwa [List.take_of_length_le (length_binarySteps n).le, Nat.sub_self] at hrun

/-! ### Decomposing an exponent -/

/-- An exponent in the direction of a decomposition. -/
def directed (upward : Bool) (t : ℕ) : ℤ := if upward then t else -t

theorem directed_add (upward : Bool) (t u : ℕ) :
    directed upward (t + u) = directed upward t + directed upward u := by
  cases upward
  · exact (congrArg Neg.neg (Nat.cast_add t u)).trans (neg_add _ _)
  · exact Nat.cast_add t u

theorem directed_natAbs (n : Int32) : directed (decide (0 ≤ n)) n.toInt.natAbs = n.toInt := by
  have h : 0 ≤ n ↔ 0 ≤ n.toInt := Int32.le_iff_toInt_le
  rw [directed]
  simp only [h, decide_eq_true_eq]
  split <;> omega

theorem representable_directed {t : ℕ} (ht : t ≤ 1023) (upward : Bool) :
    Representable ((2 : ℚ) ^ directed upward t) := by
  cases upward
  · exact representable_zpow (by rw [directed]; omega) (by rw [directed]; omega)
  · exact representable_zpow (by rw [directed]; omega) (by rw [directed]; omega)

theorem rational?_factor {k : ℕ} (hk : k < 10) (upward : Bool) :
    rational? (if upward then (Step.ofShift (2 ^ k)).up else (Step.ofShift (2 ^ k)).down) =
      some (2 ^ directed upward (2 ^ k)) := by
  cases upward
  · exact rational?_down hk
  · exact rational?_up hk

/-- The product has what the exponent `t` has lost, and what is left of `t` fits into the lowest
`k` binary places. -/
structure Decomposition.Holds (upward : Bool) (t k : ℕ) (d : Decomposition) : Prop where
  remaining_lt : d.remaining < 2 ^ k
  remaining_le : d.remaining ≤ t
  product : rational? d.product = some (2 ^ directed upward (t - d.remaining))

/-- One step: the product takes the place that the exponent loses. -/
theorem takeVia_eq (h : MulExact mul) {upward : Bool} {t k : ℕ} (ht : t ≤ 1023) (hk : k < 10)
    {d : Decomposition} (hd : d.Holds upward t (k + 1)) :
    ∃ d', d.takeVia mul upward (Step.ofShift (2 ^ k)) = pure d' ∧ d'.Holds upward t k := by
  obtain ⟨hlt, hle, hprod⟩ := hd
  rw [Decomposition.takeVia, shift_ofShift]
  by_cases htaken : 2 ^ k ≤ d.remaining
  · have hexp : (2 : ℚ) ^ directed upward (t - d.remaining) * 2 ^ directed upward (2 ^ k) =
        2 ^ directed upward (t - (d.remaining - 2 ^ k)) := by
      rw [← zpow_add₀ two_ne_zero, ← directed_add]
      congr 2
      omega
    obtain ⟨y, hy, hv⟩ := h.exists_eq hprod (rational?_factor hk upward) (by positivity)
      (by positivity) (by rw [hexp]; exact representable_directed (by omega) upward)
    rw [hexp] at hv
    refine ⟨⟨y, d.remaining - 2 ^ k⟩, ?_, ⟨by show _ - _ < _; omega, by show _ - _ ≤ _; omega, hv⟩⟩
    rw [if_pos htaken, hy, pure_bind]
  · exact ⟨d, if_neg htaken, not_le.mp htaken, hle, hprod⟩

/-- After any number of steps. -/
theorem exists_decomposeVia_take (h : MulExact mul) {n : Int32} (hn : -1022 ≤ n.toInt)
    (hn' : n.toInt ≤ 1023) (j : ℕ) :
    ∃ d, decomposeVia mul n (steps.take j) = pure d ∧
      d.Holds (decide (0 ≤ n)) n.toInt.natAbs (10 - j) := by
  have hstart : Decomposition.Holds (decide (0 ≤ n)) n.toInt.natAbs 10 ⟨1, n.toInt.natAbs⟩ := by
    refine ⟨by show n.toInt.natAbs < 2 ^ 10; omega, le_rfl, ?_⟩
    rw [Nat.sub_self, rational?_one]
    cases decide (0 ≤ n) <;> rfl
  obtain ⟨d, hd, hholds⟩ := exists_foldlM_take_binarySteps
    (fun k hk d hd => takeVia_eq h (t := n.toInt.natAbs) (by omega) hk hd) j hstart
  rw [← steps_eq, ← toNatClampNeg_abs (by omega)] at hd
  exact ⟨d, hd, hholds⟩

/-- After the last step nothing is left of the exponent. -/
theorem decomposeVia_eq (h : MulExact mul) {n : Int32} (hn : -1022 ≤ n.toInt)
    (hn' : n.toInt ≤ 1023) :
    ∃ d, decomposeVia mul n steps = pure d ∧ d.remaining = 0 ∧
      rational? d.product = some (2 ^ n.toInt) := by
  have hall : steps.take 10 = steps := rfl
  obtain ⟨d, hd, hlt, -, hprod⟩ := exists_decomposeVia_take h hn hn' 10
  have hzero : d.remaining = 0 := Nat.lt_one_iff.mp hlt
  rw [hzero, Nat.sub_zero, directed_natAbs] at hprod
  exact ⟨d, by rw [← hall, hd], hzero, hprod⟩

/-- The double that the digits of `n` multiply up to is `2 ^ n`. -/
theorem exp2Via_eq (h : MulExact mul) {n : Int32} (hn : -1022 ≤ n.toInt) (hn' : n.toInt ≤ 1023) :
    ∃ y, exp2Via mul n = pure y ∧ rational? y = some (2 ^ n.toInt) := by
  obtain ⟨d, hd, -, hv⟩ := decomposeVia_eq h hn hn'
  exact ⟨d.product, by rw [exp2Via, hd, pure_bind], hv⟩

/-! With the product of the machine a power is the same in every monad, in range or not. -/

theorem takeVia_times (upward : Bool) (d : Decomposition) (s : Step) :
    d.takeVia times upward s = (pure (Id.run (d.takeVia times upward s)) : M Decomposition) := by
  unfold Decomposition.takeVia
  split
  · rw [times, pure_bind]
    rfl
  · rfl

theorem decomposeVia_times (n : Int32) (table : List Step) :
    decomposeVia times n table =
      (pure (Id.run (decomposeVia times n table)) : M Decomposition) := by
  rw [decomposeVia, funext₂ (takeVia_times (M := M) _), List.foldlM_pure, decomposeVia,
    List.idRun_foldlM]

theorem exp2Via_times (n : Int32) : exp2Via times n = (pure (exp2 n) : M Float) := by
  rw [exp2Via, decomposeVia_times, pure_bind, exp2_eq]

end FloatWord
