import FloatWord.Proofs.Splitting

/-!
# Proofs — Normalizing — the course of a split, step by step

A split starts from the magnitude of the double, lifted among the normal numbers (`Split.lifted`),
takes ten steps down or up (`Split.afterSteps`), and ends with one halving, if it went down, and
the sign (`Split.ofFloat_eq_afterSteps`).  After any number of the steps it stands for the magnitude
still, and what is left of the way to `[1, 2)`, or to `[0.5, 1)`, fits into the places of the table
that are left (`Split.lowered_or_raised_afterSteps`).  At the end the fraction is in `[0.5, 1)`,
which leaves the exponent the range of the doubles (`Split.Stands.exponent_mem`).

`split_exact` is all of this together.
-/

namespace FloatWord

variable {x : Float} {q f : ℚ}

namespace Split
variable {s : Split}

/-- The split that the loop starts from. -/
def lifted (x : Float) : Split := Id.run (liftVia times (if x < 0 then -x else x))

/-- A split after `k` steps of the loop, down or up by its fraction. -/
def afterSteps (s : Split) (k : ℕ) : Split :=
  Id.run ((steps.take k).foldlM (if 1 ≤ s.fraction then lowerVia times else raiseVia times) s)

/-- After every step the split stands for the magnitude of the double, and the rest of the way fits
into the binary places of the steps that remain. -/
theorem lowered_or_raised_afterSteps (hx : rational? x = some q) (hq : q ≠ 0) (k : ℕ) :
    1 ≤ (lifted x).fraction ∧ ((lifted x).afterSteps k).Lowered |q| (10 - k) ∨
      ¬ 1 ≤ (lifted x).fraction ∧ ((lifted x).afterSteps k).Raised |q| (10 - k) := by
  have hpos : 0 < |q| := abs_pos.mpr hq
  have hrep : Representable |q| := representable_abs_iff.mpr ⟨x, hx⟩
  obtain ⟨t, f, ht, hst, hf⟩ := liftVia_eq (mulExact_times (M := Id)) (rational?_unsigned hx) hpos
  have hlift : lifted x = t := congrArg Id.run ht
  have hup := le_iff rational?_one hst.fraction
  rw [hlift, afterSteps, steps_eq]
  by_cases hle : 1 ≤ f
  · obtain ⟨u, hu, hdone⟩ := exists_foldlM_take_binarySteps
      (fun k hk s hs => lowerVia_eq (mulExact_times (M := Id)) hrep hpos hk hs) k
      (hst.lowered hpos hle)
    have hrun := congrArg Id.run hu
    rw [if_pos (hup.mpr hle)]
    exact .inl ⟨hup.mpr hle, by rwa [hrun]⟩
  · obtain ⟨u, hu, hdone⟩ := exists_foldlM_take_binarySteps
      (fun k hk s hs => raiseVia_eq (mulExact_times (M := Id)) hrep hpos hk hs) k
      (hst.raised (not_le.mp hle) hf)
    have hrun := congrArg Id.run hu
    rw [if_neg (mt hup.mp hle)]
    exact .inr ⟨mt hup.mp hle, by rwa [hrun]⟩

theorem exists_stands_afterSteps (hx : rational? x = some q) (hq : q ≠ 0) (k : ℕ) :
    ∃ g, ((lifted x).afterSteps k).Stands g |q| := by
  rcases lowered_or_raised_afterSteps hx hq k with ⟨-, g, hst, -⟩ | ⟨-, g, hst, -⟩
  · exact ⟨g, hst⟩
  · exact ⟨g, hst⟩

/-- The split is what the ten steps leave, halved if they went down, under the sign. -/
theorem ofFloat_eq_afterSteps (hx : rational? x = some q) (hq : q ≠ 0) :
    ofFloat x =
      let s := (lifted x).afterSteps 10
      let t : Split := if 1 ≤ (lifted x).fraction then ⟨s.fraction * 0.5, s.exponent + 1⟩ else s
      ⟨if x < 0 then -t.fraction else t.fraction, t.exponent⟩ := by
  have hall : steps.take 10 = steps := rfl
  have hrun : ofFloat x =
      let t := Id.run (normalizeVia times (lifted x))
      ⟨if x < 0 then -t.fraction else t.fraction, t.exponent⟩ := by
    rw [ofFloat, ofFloatVia, guard_eq_false hx hq]
    rfl
  have hsteps : Id.run (normalizeVia times (lifted x)) =
      if 1 ≤ (lifted x).fraction then
        ⟨((lifted x).afterSteps 10).fraction * 0.5, ((lifted x).afterSteps 10).exponent + 1⟩
      else (lifted x).afterSteps 10 := by
    rw [afterSteps, normalizeVia, hall]
    split <;> rfl
  rw [hrun, hsteps]

/-- A fraction in `[0.5, 1)` leaves the exponent the range of the doubles. -/
theorem Stands.exponent_mem (h : s.Stands f q) (hq : Representable q) (hf : 1 / 2 ≤ |f|)
    (hf' : |f| < 1) : -1073 ≤ s.exponent.toInt ∧ s.exponent.toInt ≤ 1024 := by
  have hlow := abs_mul_zpow_lt hf' s.exponent.toInt
  have hhigh := zpow_le_abs_mul_zpow hf s.exponent.toInt
  rw [h.value] at hlow hhigh
  have hpos : 0 < |q| := lt_of_lt_of_le (by positivity) hhigh
  have hmax : |q| < 2 ^ (1024 : ℤ) := hq.abs_lt
  obtain ⟨x, hx⟩ := hq
  have hmin := two_mul_underflowThreshold_le hx (abs_pos.mp hpos)
  rw [two_mul_underflowThreshold, Digits.value_ofWord_one] at hmin
  have hlow' := (zpow_lt_zpow_iff_right₀ one_lt_two).mp (hmin.trans_lt hlow)
  have hhigh' := (zpow_lt_zpow_iff_right₀ one_lt_two).mp (hhigh.trans_lt hmax)
  omega

end Split

/-- **A split is exact, and so is every step to it.**  A number other than zero is the fraction of
its split, of magnitude in `[0.5, 1)` and with its sign, times the power of two, with an exponent
from -1073 to 1024.  The split is what the ten steps of the loop leave; after each of them the
product of the fraction and the power of two is the magnitude, with the fraction from 1 up and below
what the remaining steps take out, or below 1 and in reach of what they put in.  A zero, an infinity
or a NaN is its own fraction. -/
theorem split_exact :
    (∀ x q, rational? x = some q → q ≠ 0 →
      (∃ f, rational? (Split.ofFloat x).fraction = some f ∧ 1 / 2 ≤ |f| ∧ |f| < 1 ∧
        f * 2 ^ (Split.ofFloat x).exponent.toInt = q) ∧
      isNegative (Split.ofFloat x).fraction = isNegative x ∧
      -1073 ≤ (Split.ofFloat x).exponent.toInt ∧ (Split.ofFloat x).exponent.toInt ≤ 1024 ∧
      (∀ k, ∃ g, rational? ((Split.lifted x).afterSteps k).fraction = some g ∧
        g * 2 ^ ((Split.lifted x).afterSteps k).exponent.toInt = |q| ∧
        if 1 ≤ (Split.lifted x).fraction then 1 ≤ g ∧ g < 2 ^ 2 ^ (10 - k)
        else g < 1 ∧ 1 ≤ g * 2 ^ 2 ^ (10 - k)) ∧
      Split.ofFloat x =
        let s := (Split.lifted x).afterSteps 10
        let t : Split :=
          if 1 ≤ (Split.lifted x).fraction then ⟨s.fraction * 0.5, s.exponent + 1⟩ else s
        ⟨if x < 0 then -t.fraction else t.fraction, t.exponent⟩) ∧
    ∀ x, x.isNaN = true ∨ x.isInf = true ∨ rational? x = some 0 → Split.ofFloat x = ⟨x, 0⟩ := by
  refine ⟨fun x q hx hq => ?_, fun x => Split.ofFloat_of_isSpecial⟩
  obtain ⟨f, hst, hf, hf'⟩ := Split.exists_stands_ofFloat hx hq
  obtain ⟨hlow, hhigh⟩ := hst.exponent_mem ⟨x, hx⟩ hf hf'
  refine ⟨⟨f, hst.fraction, hf, hf', hst.value⟩, hst.isNegative_eq hx hq, hlow, hhigh,
    fun k => ?_, Split.ofFloat_eq_afterSteps hx hq⟩
  rcases Split.lowered_or_raised_afterSteps hx hq k with ⟨hup, g, hg, hbound⟩ |
    ⟨hdown, g, hg, hbound⟩
  · exact ⟨g, hg.fraction, hg.value, by rwa [if_pos hup]⟩
  · exact ⟨g, hg.fraction, hg.value, by rwa [if_neg hdown]⟩

/-- The smallest double, below zero, and the doubles that are their own fraction. -/
theorem split_exact_smallest :
    isNegative (Split.ofFloat (-twoPowNeg 1074)).fraction = isNegative (-twoPowNeg 1074) ∧
      -1073 ≤ (Split.ofFloat (-twoPowNeg 1074)).exponent.toInt ∧
      (∃ g, rational? ((Split.lifted (-twoPowNeg 1074)).afterSteps 3).fraction = some g ∧
        g * 2 ^ ((Split.lifted (-twoPowNeg 1074)).afterSteps 3).exponent.toInt =
          2 ^ (-1074 : ℤ)) ∧
      Split.ofFloat (-0) = ⟨-0, 0⟩ ∧ Split.ofFloat (-infinity) = ⟨-infinity, 0⟩ ∧
      Split.ofFloat notANumber = ⟨notANumber, 0⟩ := by
  obtain ⟨hnumber, hspecial⟩ := split_exact
  have hleast : (0 : ℚ) < 2 ^ (-1074 : ℤ) := by positivity
  have hx : rational? (-twoPowNeg 1074) = some (-2 ^ (-1074 : ℤ)) :=
    rational?_neg (rational?_twoPowNeg le_rfl)
  obtain ⟨-, hsign, hlow, -, hloop, -⟩ := hnumber _ _ hx (neg_ne_zero.mpr hleast.ne')
  obtain ⟨g, hg, hvalue, -⟩ := hloop 3
  rw [abs_neg, abs_of_pos hleast] at hvalue
  exact ⟨hsign, hlow, ⟨g, hg, hvalue⟩, hspecial _ (.inr (.inr (rational?_neg rational?_zero))),
    hspecial _ (.inr (.inl (by decide))), hspecial _ (.inl (by decide))⟩

end FloatWord
