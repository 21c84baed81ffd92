import FloatWord.FloatClass
import Mathlib.Tactic

/-!
# Exact — the number that a double is, and what it means to round

Every finite double is a rational number, `rational?`.  Statements about scaling, splitting and
rounding compare these numbers, not the doubles: `Representable` says that a rational is one of
them, and `ExactProduct` that a product needs no rounding.

Three relations between a rational number and its rounding, none of which computes it: the nearest
integer (`IsNearestInt`), the nearest double (`IsNearest`), and the largest double that is not
above a number (`IsTruncation`).
-/

namespace FloatWord

/-! ### The number of a double -/

/-- The rational number that a finite double is; nothing for an infinity or a NaN. -/
def rational? (x : Float) : Option ℚ :=
  match x.toModel.unpack with
  | .zero _ => some 0
  | .finite s digits e _ => some ((s.apply digits : ℤ) * 2 ^ e)
  | .infinity _ => none
  | .notANumber => none

/-- A rational number that is a double. -/
def Representable (q : ℚ) : Prop :=
  ∃ x, rational? x = some q

/-- Two finite doubles whose product is a double too. -/
def ExactProduct (a b : Float) : Prop :=
  ∃ p q, rational? a = some p ∧ rational? b = some q ∧ Representable (p * q)

/-! ### Rounding -/

/-- The integer `n` is the one nearest to `q`, and the even one if `q` is halfway between two. -/
def IsNearestInt (q : ℚ) (n : ℤ) : Prop :=
  |q - n| ≤ 1 / 2 ∧ (|q - n| = 1 / 2 → Even n)

/-- No number has two nearest integers: at the same distance both would be even, and two even
numbers are not neighbours. -/
theorem IsNearestInt.unique {q : ℚ} {m n : ℤ} (hm : IsNearestInt q m) (hn : IsNearestInt q n) :
    m = n := by
  obtain ⟨hm, hm'⟩ := hm
  obtain ⟨hn, hn'⟩ := hn
  have key : |(m : ℚ) - n| ≤ 1 := by
    rw [abs_le] at hm hn ⊢
    constructor <;> linarith [hm.1, hm.2, hn.1, hn.2]
  have hle : |m - n| ≤ 1 := by exact_mod_cast key
  by_contra hne
  have hone : |m - n| = 1 := le_antisymm hle (Int.one_le_abs (sub_ne_zero.mpr hne))
  have hone' : |(m : ℚ) - n| = 1 := by exact_mod_cast hone
  -- both distances are a half, since they add up to 1
  have hsum : (1 : ℚ) ≤ |q - m| + |q - n| := by
    rw [← hone', abs_sub_comm q m]
    simpa using abs_add_le ((m : ℚ) - q) (q - n)
  have hem := hm' (le_antisymm hm (by linarith))
  have hen := hn' (le_antisymm hn (by linarith))
  have := hem.sub hen
  rcases abs_eq (by norm_num : (0 : ℤ) ≤ 1) |>.mp hone with h | h <;> rw [h] at this <;>
    revert this <;> decide

/-- Every number has a nearest integer: its floor or the next one. -/
theorem exists_isNearestInt (q : ℚ) : ∃ n : ℤ, IsNearestInt q n := by
  have hlow := Int.floor_le q
  have hhigh := Int.lt_floor_add_one q
  have hdown : |q - ⌊q⌋| = q - ⌊q⌋ := abs_of_nonneg (by linarith)
  have hup : |q - (⌊q⌋ + 1 : ℤ)| = ⌊q⌋ + 1 - q := by
    rw [abs_sub_comm, Int.cast_add, Int.cast_one, abs_of_pos (by linarith)]
  rcases lt_trichotomy (q - ⌊q⌋) (1 / 2) with h | h | h
  · refine ⟨⌊q⌋, by rw [hdown]; exact h.le, fun heq => ?_⟩
    rw [hdown] at heq
    exact absurd heq h.ne
  · rcases Int.even_or_odd ⌊q⌋ with heven | hodd
    · exact ⟨⌊q⌋, by rw [hdown]; exact h.le, fun _ => heven⟩
    · exact ⟨⌊q⌋ + 1, by rw [hup]; linarith, fun _ => hodd.add_one⟩
  · refine ⟨⌊q⌋ + 1, by rw [hup]; linarith, fun heq => ?_⟩
    rw [hup] at heq
    linarith

/-- An integer is its own nearest one. -/
theorem isNearestInt_intCast (k : ℤ) : IsNearestInt k k := by
  rw [IsNearestInt, sub_self, abs_zero]
  norm_num

/-- The nearest integer grows with the number: in the opposite order, the two integers would have
one number between them. -/
theorem IsNearestInt.mono {p q : ℚ} {m n : ℤ} (hm : IsNearestInt p m) (hn : IsNearestInt q n)
    (h : p ≤ q) : m ≤ n := by
  by_contra hlt
  have hgap : (n : ℚ) + 1 ≤ m := by exact_mod_cast not_le.mp hlt
  have hlow := (abs_le.mp hm.1).1
  have hhigh := (abs_le.mp hn.1).2
  have heq : p = q := le_antisymm h (by linarith)
  rw [heq] at hm
  exact hlt (hm.unique hn).le

theorem IsNearestInt.neg {q : ℚ} {n : ℤ} (h : IsNearestInt q n) : IsNearestInt (-q) (-n) := by
  obtain ⟨hle, heven⟩ := h
  have hdist : |-q - (-n : ℤ)| = |q - n| := by rw [Int.cast_neg, neg_sub_neg, abs_sub_comm]
  rw [IsNearestInt, hdist]
  exact ⟨hle, fun heq => (heven heq).neg⟩

/-- An even integer moves a number and its nearest integer alike. -/
theorem IsNearestInt.add_even {q : ℚ} {n k : ℤ} (h : IsNearestInt q n) (hk : Even k) :
    IsNearestInt (q + k) (n + k) := by
  obtain ⟨hle, heven⟩ := h
  rw [IsNearestInt, Int.cast_add, add_sub_add_right_eq_sub]
  exact ⟨hle, fun heq => (heven heq).add hk⟩

/-- Halfway from the largest double to `2 ^ 1024`: what is rounded to an infinity, and not to a
finite double. -/
def overflowThreshold : ℚ := 2 ^ 1024 - 2 ^ 970

/-- The double `y` carries the given sign and is the one nearest to `q`: an infinity from
`overflowThreshold` on, and of two at the same distance the one with the even word. -/
def IsNearest (negative : Bool) (q : ℚ) (y : Float) : Prop :=
  isNegative y = negative ∧
    if overflowThreshold ≤ |q| then y.isInf = true
    else ∃ v, rational? y = some v ∧ ∀ z w, rational? z = some w →
      |q - v| ≤ |q - w| ∧ (|q - v| = |q - w| → v = w ∨ y.toBits &&& 1 = 0)

/-- The double `y` is positive and the largest one that is not above `q`, an infinity from
`2 ^ 1024` on. -/
def IsTruncation (q : ℚ) (y : Float) : Prop :=
  isNegative y = false ∧
    if (2 : ℚ) ^ 1024 ≤ q then y.isInf = true
    else ∃ v, rational? y = some v ∧ v ≤ q ∧ ∀ z w, rational? z = some w → w ≤ q → w ≤ v

end FloatWord
