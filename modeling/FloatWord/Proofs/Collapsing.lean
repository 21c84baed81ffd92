import FloatWord.Proofs.Confining
import FloatWord.Proofs.Projecting
import FloatWord.Proofs.Truncating

/-!
# Proofs — Collapsing — where packing gives a zero or an infinity

Packing cuts at the exponents -1084 and 1024, and it does so after the carry.  The carry is seen
from the fraction: scaling, rounding and the conversion to an integer all keep the order, so the
fractions that have a digit to carry are those from 1 up, and NaN is not among them
(`Split.carries_iff`).

One more in the exponent does not cross the cuts.  Above 1024 it stays above.  Below -1084 it
stays at most -1084, where the shift takes off 63 bits, and after the carry there are no more
(`Significand.carry_lt`).  What can go wrong is the addition itself.  There is no exponent after
`Int32.maxValue`, so under it a fraction with a digit to carry has no word at all: the addition is
reported (`Split.packChecked_highest`).  That is the only exception, to the cuts and to the ranges
of the integer steps alike (`pack_collapses_iff`).
-/

namespace FloatWord

variable {x y f g : Float}

/-! ### The conversion to an integer -/

theorem toUInt64_le_toUInt64 (h : x ≤ y) : x.toUInt64 ≤ y.toUInt64 := by
  refine related_of_le (r := (· ≤ ·)) (f := Float.toUInt64) ?top ?bottom ?number h
  case top =>
    intro z _
    have htop : infinity.toUInt64.toNat = 2 ^ 64 - 1 := by decide
    have hlt := z.toUInt64.toNat_lt
    rw [UInt64.le_iff_toNat_le, htop]
    omega
  case bottom =>
    intro z _
    have hbottom : (-infinity).toUInt64.toNat = 0 := by decide
    rw [UInt64.le_iff_toNat_le, hbottom]
    exact Nat.zero_le _
  case number =>
    intro z w p q hz hw hpq
    rw [UInt64.le_iff_toNat_le, toNat_toUInt64 hz, toNat_toUInt64 hw]
    exact min_le_min_right _ (Nat.floor_le_floor hpq)

/-! ### The fractions with a digit to carry -/

namespace Split

theorem exp2_53 : exp2 53 = two53 := by
  have hexp := rational?_exp2 (n := 53) (by decide) (by decide)
  exact eq_of_rational?_of_ne_zero hexp rational?_two53 (by positivity)

theorem mul_two53 (f : Float) : f * two53 = scale f 53 := by
  rw [scale_eq, ← exp2_53]
  rfl

/-- A larger fraction has a significand that is no smaller. -/
theorem digits_le_digits (h : f ≤ g) :
    (roundTiesEven (f * two53)).toUInt64 ≤ (roundTiesEven (g * two53)).toUInt64 := by
  refine toUInt64_le_toUInt64 (roundTiesEven_le_roundTiesEven ?_)
  rw [mul_two53, mul_two53]
  exact scale_le_scale h 53

/-- The double before 1. -/
def belowOne : Float := Float.ofBits 0x3FEFFFFFFFFFFFFF

theorem le_belowOne (hf : f.isNaN = false) (h : ¬ 1 ≤ f) : f ≤ belowOne := by
  have hkey : orderKey (1 : Float).toBits = orderKey belowOne.toBits + 1 := by decide
  rw [le_iff_orderKey (by decide) hf, not_le, hkey] at h
  rw [le_iff_orderKey hf (by decide)]
  omega

/-- The fractions with a digit to carry are those from 1 up. -/
theorem carries_iff (f : Float) :
    mantissaMask ||| implicitBit < (roundTiesEven (f * two53)).toUInt64 ↔ 1 ≤ f := by
  constructor
  · intro hcarry
    by_contra hlow
    have hshort : (roundTiesEven (f * two53)).toUInt64 ≤ mantissaMask ||| implicitBit := by
      cases hf : f.isNaN with
      | true =>
          rw [eq_notANumber hf]
          decide +kernel
      | false =>
          have htop :
              (roundTiesEven (belowOne * two53)).toUInt64 = mantissaMask ||| implicitBit := by
            decide +kernel
          rw [← htop]
          exact digits_le_digits (le_belowOne hf hlow)
    exact absurd hcarry (UInt64.not_lt.mpr hshort)
  · intro hone
    have hlong : mantissaMask ||| implicitBit < (roundTiesEven (1 * two53)).toUInt64 := by
      decide +kernel
    exact UInt64.lt_of_lt_of_le hlong (digits_le_digits hone)

end Split

/-! ### The exponent after the carry -/

namespace Significand

variable {t : Significand}

theorem toInt_carry_exponent (h : ¬ t.Wraps) :
    t.exponent.toInt ≤ t.carry.exponent.toInt ∧
      t.carry.exponent.toInt ≤ t.exponent.toInt + 1 := by
  rw [carry_eq]
  split
  · rename_i hlong
    rw [toInt_add_one fun hmax => h ⟨hlong, hmax⟩]
    omega
  · omega

/-- Below -1084 the carry leads to -1084 at most, and the shift there leaves nothing. -/
theorem toWord_carry_of_low (he : t.exponent.toInt < -1084) : t.carry.toWord = 0 := by
  have hwraps : ¬ t.Wraps := fun hw => by
    have hmax : t.exponent.toInt = Int32.maxValue.toInt := congrArg _ hw.2
    have htop : Int32.maxValue.toInt = 2 ^ 31 - 1 := rfl
    omega
  obtain ⟨-, hle⟩ := toInt_carry_exponent hwraps
  have hpow : 2 ^ 63 ≤ 2 ^ (-1021 - t.carry.exponent.toInt).toNat :=
    Nat.pow_le_pow_right two_pos (by omega)
  refine UInt64.toNat_inj.mp ?_
  rw [toNat_toWord_of_low _ (by omega), Nat.div_eq_of_lt (t.carry_lt.trans_le hpow)]
  rfl

theorem toWord_carry_of_high (h : ¬ t.Wraps) (he : 1024 < t.exponent.toInt) :
    t.carry.toWord = infinityWord := by
  obtain ⟨hle, -⟩ := toInt_carry_exponent h
  exact toWord_of_high _ (he.trans_le hle)

end Significand

/-! ### Packing -/

namespace Split

theorem wraps_iff (f : Float) (e : Int32) :
    (Id.run (significandVia times ⟨f, e⟩)).Wraps ↔ 1 ≤ f ∧ e = Int32.maxValue :=
  and_congr_left' (carries_iff f)

/-- Under the highest exponent a fraction from 1 up has no word: its carry is out of range. -/
theorem packChecked_highest (hf : 1 ≤ f) (sign : Word) :
    packChecked sign ⟨f, Int32.maxValue⟩ = .error .add := by
  rw [packChecked_eq, if_pos ((wraps_iff f _).mpr ⟨hf, rfl⟩)]

/-- No other carry is, and no other step. -/
theorem packChecked_of_not_highest {e : Int32} (h : ¬ (1 ≤ f ∧ e = Int32.maxValue)) (sign : Word) :
    packChecked sign ⟨f, e⟩ = .ok (pack sign ⟨f, e⟩) := by
  rw [packChecked_eq, if_neg (mt (wraps_iff f e).mp h)]

/-- The cut at the bottom, -/
theorem pack_of_low {e : Int32} (he : e < -1084) (sign : Word) : pack sign ⟨f, e⟩ = sign := by
  have hlow : (Id.run (significandVia times ⟨f, e⟩)).exponent.toInt < -1084 :=
    Significand.lt_neg_1084_iff.mp he
  rw [pack_eq, Significand.toWord_carry_of_low hlow, UInt64.or_zero]

/-- and the one at the top. -/
theorem pack_of_high {e : Int32} (h : ¬ (1 ≤ f ∧ e = Int32.maxValue)) (he : 1024 < e)
    (sign : Word) : pack sign ⟨f, e⟩ = sign ||| infinityWord := by
  have hhigh : 1024 < (Id.run (significandVia times ⟨f, e⟩)).exponent.toInt :=
    Significand.lt_1024_iff.mp he
  rw [pack_eq, Significand.toWord_carry_of_high (mt (wraps_iff f e).mp h) hhigh]

end Split

/-- **Packing collapses at its cuts, for every fraction and every exponent but one.**  Below -1084
it gives the sign alone, above 1024 the infinity under the sign, and no integer step on the way
leaves the range of its type, if and only if it is not a fraction from 1 up under the highest
exponent of all.  There the carry is the addition that overflows, and on integers that report an
overflow packing gives no word. -/
theorem pack_collapses_iff (f : Float) (e : Int32) :
    ((e < -1084 → ∀ sign, Split.packChecked sign ⟨f, e⟩ = .ok sign) ∧
        (1024 < e → ∀ sign, Split.packChecked sign ⟨f, e⟩ = .ok (sign ||| infinityWord)) ∧
        (∀ sign, Split.packChecked sign ⟨f, e⟩ = .ok (Split.pack sign ⟨f, e⟩)) ↔
      ¬ (1 ≤ f ∧ e = Int32.maxValue)) ∧
    (1 ≤ f → ∀ sign, Split.packChecked sign ⟨f, Int32.maxValue⟩ = .error .add) := by
  refine ⟨⟨?_, fun h => ?_⟩, fun hf => Split.packChecked_highest hf⟩
  · rintro ⟨-, -, hfit⟩ ⟨hf, rfl⟩
    have hword := hfit 0
    rw [Split.packChecked_highest hf] at hword
    cases hword
  · have hfit := Split.packChecked_of_not_highest h
    refine ⟨fun hlow sign => ?_, fun hhigh sign => ?_, hfit⟩
    · rw [hfit, Split.pack_of_low hlow]
    · rw [hfit, Split.pack_of_high h hhigh]

/-- A carry into the cut at the bottom, the last exponent with a next one, and the highest exponent
under a fraction with nothing to carry, under NaN and under 1. -/
theorem pack_collapses_iff_edges :
    Split.packChecked signMask ⟨1, -1085⟩ = .ok signMask ∧
      Split.packChecked signMask ⟨infinity, 2147483646⟩ = .ok (signMask ||| infinityWord) ∧
      Split.packChecked 0 ⟨0.5, 2147483647⟩ = .ok (0 ||| infinityWord) ∧
      Split.packChecked 0 ⟨notANumber, 2147483647⟩ =
        .ok (Split.pack 0 ⟨notANumber, 2147483647⟩) ∧
      Split.packChecked signMask ⟨1, Int32.maxValue⟩ = .error .add := by
  obtain ⟨hlow, -, -⟩ := (pack_collapses_iff 1 (-1085)).1.mpr fun h => absurd h.2 (by decide)
  obtain ⟨-, hhigh, -⟩ :=
    (pack_collapses_iff infinity 2147483646).1.mpr fun h => absurd h.2 (by decide)
  obtain ⟨-, hshort, -⟩ := (pack_collapses_iff 0.5 2147483647).1.mpr fun h => absurd h.1 (by decide)
  obtain ⟨-, -, hfit⟩ :=
    (pack_collapses_iff notANumber 2147483647).1.mpr fun h => absurd h.1 (by decide)
  obtain ⟨-, hover⟩ := pack_collapses_iff 1 0
  exact ⟨hlow (by decide) signMask, hhigh (by decide) signMask, hshort (by decide) 0, hfit 0,
    hover (by decide) signMask⟩

/-- Under the highest exponent 1 is not packed as the infinity, and as no other word: the addition
of its carry overflows, and packing reports it. -/
theorem pack_one_highest :
    Split.packChecked 0 ⟨1, Int32.maxValue⟩ = .error .add ∧
      ¬ ∀ (sign : Word) (f : Float) (e : Int32),
        (e < -1084 → Split.packChecked sign ⟨f, e⟩ = .ok sign) ∧
        (1024 < e → Split.packChecked sign ⟨f, e⟩ = .ok (sign ||| infinityWord)) ∧
        Split.packChecked sign ⟨f, e⟩ = .ok (Split.pack sign ⟨f, e⟩) := by
  have hover : Split.packChecked 0 ⟨1, Int32.maxValue⟩ = .error .add :=
    Split.packChecked_highest (by decide) 0
  refine ⟨hover, fun h => ?_⟩
  obtain ⟨-, hhigh, -⟩ := h 0 1 Int32.maxValue
  rw [hover] at hhigh
  cases hhigh (by decide)

end FloatWord
