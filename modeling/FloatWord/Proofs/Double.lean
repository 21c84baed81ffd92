import Mathlib
import FloatWord.Layout
import FloatWord.FloatClass
import FloatWord.Proofs.Digits

/-!
# Proofs — Double — doubles as a sign and digits

`ofDigits negative d` is the double with this sign and these digits; from `infinityPlace` on it is
an infinity.  Every double but NaN arises so (`exists_eq_ofDigits`), and on doubles given this way
the host's operations read off: the word (`toNat_toBits_ofDigits`), the number
(`rational?_ofDigits`), the sign (`isNegative_ofDigits`), negation (`neg_ofDigits`) and the order
(`lt_iff`, `le_iff`, `beq_iff`).

The host takes a double apart by cutting its word into bit vectors.  Only the first section looks
at these; all later proofs see digits.
-/

namespace FloatWord
open Float.Model (UnpackedFloat Format)
open Float.Model.UnpackedFloat (Sign)

/-! ### The unpacked form of a word -/

theorem toNat_unpackMantissa (w : Word) :
    (@UnpackedFloat.unpackMantissa Format.binary64 w.toBitVec).toNat =
      w.toNat % 2 ^ 52 := by
  rw [UnpackedFloat.unpackMantissa_def]
  simp

theorem toNat_unpackExponent (w : Word) :
    (@UnpackedFloat.unpackExponent Format.binary64 w.toBitVec).toNat =
      w.toNat / 2 ^ 52 % 2 ^ 11 := by
  rw [UnpackedFloat.unpackExponent_def]
  simp [Nat.shiftRight_eq_div_pow]

/-- The host's sign. -/
def toSign (negative : Bool) : Sign := if negative then .negative else .positive

theorem ofBitVec_unpackSign (w : Word) :
    Sign.ofBitVec (@UnpackedFloat.unpackSign Format.binary64 w.toBitVec) =
      toSign (decide (2 ^ 63 ≤ w.toNat)) := by
  have h : (@UnpackedFloat.unpackSign Format.binary64 w.toBitVec).toNat =
      w.toNat / 2 ^ 63 % 2 := by
    rw [UnpackedFloat.unpackSign_def]
    simp [Nat.shiftRight_eq_div_pow]
  have hw := w.toNat_lt
  have hs : @UnpackedFloat.unpackSign Format.binary64 w.toBitVec = 0#1 ↔
      w.toNat < 2 ^ 63 := by
    rw [← BitVec.toNat_inj, h, BitVec.toNat_ofNat]
    omega
  by_cases hlt : w.toNat < 2 ^ 63
  · rw [Sign.ofBitVec, if_pos (hs.mpr hlt), toSign, if_neg (by simpa using hlt)]
  · rw [Sign.ofBitVec, if_neg (mt hs.mp hlt), toSign, if_pos (by simpa using hlt)]

theorem toNat_implicit_append (v : BitVec 52) : (1#1 ++ v).toNat = 2 ^ 52 + v.toNat := by
  rw [BitVec.toNat_append, ← Nat.shiftLeft_add_eq_or_of_lt v.isLt]
  rfl

/-- The host's form of a sign and digits. -/
def Digits.unpacked (negative : Bool) (d : Digits) : UnpackedFloat :=
  if d.word < infinityPlace then
    if h : d.significand = 0 then .zero (toSign negative)
    else .finite (toSign negative) d.significand d.exponent (Nat.pos_of_ne_zero h)
  else .infinity (toSign negative)

/-- The host's reading of a word, field by field. -/
theorem unpack_fields (w : Word) :
    UnpackedFloat.unpack Format.binary64 w.toBitVec =
      if w.toNat / 2 ^ 52 % 2 ^ 11 = 2047 then
        if w.toNat % 2 ^ 52 = 0 then .infinity (toSign (decide (2 ^ 63 ≤ w.toNat)))
        else .notANumber
      else if w.toNat / 2 ^ 52 % 2 ^ 11 = 0 then
        if h : w.toNat % 2 ^ 52 = 0 then .zero (toSign (decide (2 ^ 63 ≤ w.toNat)))
        else .finite (toSign (decide (2 ^ 63 ≤ w.toNat))) (w.toNat % 2 ^ 52) (-1074)
          (Nat.pos_of_ne_zero h)
      else .finite (toSign (decide (2 ^ 63 ≤ w.toNat))) (2 ^ 52 + w.toNat % 2 ^ 52)
        ((w.toNat / 2 ^ 52 % 2 ^ 11 : ℕ) - 1075) (by omega) := by
  have hall : (-BitVec.ofNat Format.binary64.exponentBits 1).toNat = 2047 := by decide
  have hzero : (BitVec.ofNat Format.binary64.exponentBits 0).toNat = 0 := by decide
  have hzero' : (BitVec.ofNat Format.binary64.mantissaBitsWithoutImplicit 0).toNat = 0 := by decide
  have hbias : ((Format.binary64.exponentBias : ℕ) : ℤ) +
      (Format.binary64.mantissaBitsWithoutImplicit : ℕ) = 1075 := by decide
  have hsub : ((0 : ℕ) : ℤ) - 1075 + 1 = -1074 := by decide
  unfold UnpackedFloat.unpack
  simp only [ofBitVec_unpackSign, ← BitVec.toNat_inj, toNat_unpackExponent, toNat_implicit_append,
    toNat_unpackMantissa, hall, hzero, hzero', hbias]
  split_ifs with h₁ h₂ h₃ h₄
  · rfl
  · rfl
  · rfl
  · rw [UnpackedFloat.finite.injEq, h₃, hsub]
    exact ⟨rfl, rfl, rfl⟩
  · rfl

/-- A word up to `infinityPlace`, its sign aside, is a sign and digits. -/
theorem unpack_word {w : Word} (h : w.toNat % 2 ^ 63 ≤ infinityPlace) :
    UnpackedFloat.unpack Format.binary64 w.toBitVec =
      (Digits.ofWord (w.toNat % 2 ^ 63)).unpacked (decide (2 ^ 63 ≤ w.toNat)) := by
  rw [unpack_fields, Digits.unpacked, Digits.word_ofWord]
  unfold infinityPlace at h ⊢
  rcases h.eq_or_lt with h | h
  · -- `+∞` or `-∞`
    rw [if_pos (by omega), if_pos (by omega), if_neg (by omega)]
  rw [if_neg (by omega), if_pos h]
  rcases lt_or_ge (w.toNat % 2 ^ 63) (2 ^ 52) with hlt | hle
  · -- no exponent bits
    obtain ⟨hs, he⟩ := Digits.ofWord_of_lt hlt
    simp only [hs, he]
    rw [if_pos (by omega)]
    by_cases h₀ : w.toNat % 2 ^ 63 = 0
    · rw [dif_pos (by omega), dif_pos h₀]
    · rw [dif_neg (by omega), dif_neg h₀, UnpackedFloat.finite.injEq]
      exact ⟨rfl, by omega, rfl⟩
  · obtain ⟨hs, he⟩ := Digits.ofWord_of_le hle
    simp only [hs, he]
    rw [if_neg (by omega), dif_neg (by omega), UnpackedFloat.finite.injEq]
    exact ⟨rfl, by omega, by omega⟩

/-- All other words are NaN. -/
theorem unpack_nanWord {w : Word} (h : infinityPlace < w.toNat % 2 ^ 63) :
    UnpackedFloat.unpack Format.binary64 w.toBitVec = .notANumber := by
  rw [infinityPlace] at h
  rw [unpack_fields, if_pos (by omega), if_neg (by omega)]

/-! ### Doubles from digits -/

/-- The double with this sign and these digits; from `infinityPlace` on, an infinity. -/
def ofDigits (negative : Bool) (d : Digits) : Float :=
  Float.ofBits (UInt64.ofNat ((if negative then 2 ^ 63 else 0) + min d.word infinityPlace))

theorem toBits_ofBits {w : Word} (h : w.toNat % 2 ^ 63 ≤ infinityPlace) :
    (Float.ofBits w).toBits = w := by
  have hnan : @UnpackedFloat.isNaNBits Format.binary64 w.toBitVec = false := by
    have hall : (-BitVec.ofNat Format.binary64.exponentBits 1).toNat = 2047 := by decide
    have hzero : (BitVec.ofNat Format.binary64.mantissaBitsWithoutImplicit 0).toNat = 0 := by decide
    rw [UnpackedFloat.isNaNBits, decide_eq_false_iff_not, Ne, ← BitVec.toNat_inj,
      ← BitVec.toNat_inj, toNat_unpackExponent, toNat_unpackMantissa, hall, hzero]
    rw [infinityPlace] at h
    omega
  refine UInt64.toBitVec_inj.mp ?_
  show UnpackedFloat.pack Format.binary64 (UnpackedFloat.unpack Format.binary64 w.toBitVec) = _
  rw [UnpackedFloat.pack_unpack, hnan]
  rfl

theorem toNat_toBits_ofDigits (s : Bool) (d : Digits) :
    (ofDigits s d).toBits.toNat = (if s then 2 ^ 63 else 0) + min d.word infinityPlace := by
  have h : ((if s then 2 ^ 63 else 0) + min d.word infinityPlace) % 2 ^ 64 =
      (if s then 2 ^ 63 else 0) + min d.word infinityPlace := by
    unfold infinityPlace
    split <;> omega
  rw [ofDigits, toBits_ofBits, UInt64.toNat_ofNat', h]
  rw [UInt64.toNat_ofNat', h]
  unfold infinityPlace
  split <;> omega

theorem toNat_toBits_ofDigits_mod (s : Bool) (d : Digits) :
    (ofDigits s d).toBits.toNat % 2 ^ 63 = min d.word infinityPlace := by
  rw [toNat_toBits_ofDigits, infinityPlace]
  split <;> omega

theorem le_toNat_toBits_ofDigits (s : Bool) (d : Digits) :
    decide (2 ^ 63 ≤ (ofDigits s d).toBits.toNat) = s := by
  rw [toNat_toBits_ofDigits, infinityPlace]
  cases s <;> simp

/-- The host takes the double apart into the sign and the digits. -/
theorem unpack_ofDigits (s : Bool) (d : Digits) :
    (ofDigits s d).toModel.unpack = d.unpacked s := by
  show UnpackedFloat.unpack Format.binary64 (ofDigits s d).toBits.toBitVec = _
  rw [unpack_word ((toNat_toBits_ofDigits_mod s d).trans_le (min_le_right _ _)),
    toNat_toBits_ofDigits_mod, le_toNat_toBits_ofDigits]
  rcases le_total d.word infinityPlace with h | h
  · rw [min_eq_left h, Digits.ofWord_word]
  · rw [min_eq_right h, Digits.unpacked, Digits.unpacked, Digits.word_ofWord,
      if_neg (lt_irrefl _), if_neg (not_lt.mpr h)]

/-- The host puts the sign and the digits together again. -/
theorem pack_unpacked (s : Bool) (d : Digits) :
    Float.ofModel (Float.Model.pack (d.unpacked s)) = ofDigits s d := by
  rw [← unpack_ofDigits]
  exact Float.ofBits_toBits _

/-- Every double but NaN is a sign and digits. -/
theorem exists_eq_ofDigits {x : Float} (hx : x.isNaN = false) :
    ∃ s d, d.word ≤ infinityPlace ∧ x = ofDigits s d := by
  have hw := x.toBits.toNat_lt
  have hle : x.toBits.toNat % 2 ^ 63 ≤ infinityPlace := by
    by_contra h
    have hnan : x.toModel.unpack = .notANumber := unpack_nanWord (not_le.mp h)
    rw [Float.isNaN, Float.Model.isNaN, hnan] at hx
    cases hx
  refine ⟨decide (2 ^ 63 ≤ x.toBits.toNat), .ofWord (x.toBits.toNat % 2 ^ 63), ?_, ?_⟩
  · rwa [Digits.word_ofWord]
  · apply Float.toBits_inj.mp
    refine UInt64.toNat_inj.mp ?_
    rw [toNat_toBits_ofDigits, Digits.word_ofWord, min_eq_left hle]
    simp only [decide_eq_true_eq]
    split <;> omega

/-! ### The number, the class and the sign -/

/-- A number under a sign. -/
def signed (negative : Bool) (q : ℚ) : ℚ := if negative then -q else q

@[simp] theorem abs_signed (s : Bool) (q : ℚ) : |signed s q| = |q| := by
  cases s
  · rfl
  · exact abs_neg q

@[simp] theorem signed_zero (s : Bool) : signed s 0 = 0 := by
  cases s
  · rfl
  · exact neg_zero

theorem signed_eq_zero_iff (s : Bool) (q : ℚ) : signed s q = 0 ↔ q = 0 := by
  rw [← abs_eq_zero, abs_signed, abs_eq_zero]

theorem signed_not (s : Bool) (q : ℚ) : signed (!s) q = -signed s q := by
  cases s
  · rfl
  · exact (neg_neg q).symm

theorem signed_injective (s : Bool) : Function.Injective (signed s) := by
  intro p q h
  cases s
  · exact h
  · exact neg_injective h

/-- A number under its own sign. -/
theorem signed_abs (q : ℚ) : signed (decide (q < 0)) |q| = q := by
  rcases lt_or_ge q 0 with h | h
  · rw [decide_eq_true h, abs_of_neg h]
    exact neg_neg q
  · rw [decide_eq_false h.not_gt, abs_of_nonneg h]
    rfl

/-- A number other than zero has one sign. -/
theorem eq_of_signed_abs {s : Bool} {q : ℚ} (h : signed s |q| = q) (hq : q ≠ 0) :
    s = decide (q < 0) := by
  cases s with
  | true =>
      have hneg : -|q| = q := h
      exact (decide_eq_true (lt_of_le_of_ne (by linarith [abs_nonneg q]) hq)).symm
  | false =>
      have hpos : |q| = q := h
      exact (decide_eq_false (by linarith [abs_nonneg q])).symm

theorem rational?_ofDigits {s : Bool} {d : Digits} (h : d.word < infinityPlace) :
    rational? (ofDigits s d) = some (signed s d.value) := by
  rw [rational?, unpack_ofDigits, Digits.unpacked, if_pos h]
  by_cases h₀ : d.significand = 0
  · rw [dif_pos h₀, (Digits.value_eq_zero_iff d).mpr h₀, signed_zero]
  · rw [dif_neg h₀, Digits.value]
    cases s <;> simp [toSign, Sign.apply, signed]

theorem rational?_ofDigits_of_le {s : Bool} {d : Digits} (h : infinityPlace ≤ d.word) :
    rational? (ofDigits s d) = none := by
  rw [rational?, unpack_ofDigits, Digits.unpacked, if_neg (not_lt.mpr h)]

theorem isInf_ofDigits (s : Bool) (d : Digits) :
    (ofDigits s d).isInf = decide (infinityPlace ≤ d.word) := by
  rw [Float.isInf, Float.Model.isInf, unpack_ofDigits, Digits.unpacked]
  split
  · rename_i h
    split <;> simp [UnpackedFloat.isInf, h]
  · rename_i h
    simp [UnpackedFloat.isInf, not_lt.mp h]

theorem isNaN_ofDigits (s : Bool) (d : Digits) : (ofDigits s d).isNaN = false := by
  rw [Float.isNaN, Float.Model.isNaN, unpack_ofDigits, Digits.unpacked]
  split
  · split <;> rfl
  · rfl

/-- A finite double is a sign and digits below `infinityPlace`. -/
theorem exists_ofDigits_of_rational? {x : Float} {p : ℚ} (hx : rational? x = some p) :
    ∃ s d, d.word < infinityPlace ∧ x = ofDigits s d ∧ p = signed s d.value := by
  have hnan : x.isNaN = false := by
    rw [Float.isNaN, Float.Model.isNaN]
    rw [rational?] at hx
    cases h : x.toModel.unpack with
    | notANumber => rw [h] at hx; cases hx
    | infinity s | zero s | finite s m e hm => rfl
  obtain ⟨s, d, -, rfl⟩ := exists_eq_ofDigits hnan
  rcases lt_or_ge d.word infinityPlace with h | h
  · exact ⟨s, d, h, rfl, (Option.some.inj ((rational?_ofDigits h).symm.trans hx)).symm⟩
  · rw [rational?_ofDigits_of_le h] at hx
    cases hx

/-- The host compares exponents first, and then significands. -/
theorem Digits.compare_then (d d' : Digits) :
    (compare d.exponent d'.exponent).then (compare d.significand d'.significand) =
      compare d.value d'.value := by
  have := d.significand_lt; have := d'.significand_lt
  have := d.le_exponent; have := d'.le_exponent
  have := d.normal; have := d'.normal
  have hlt : d.exponent < d'.exponent ∨
      d.exponent = d'.exponent ∧ d.significand < d'.significand → d.value < d'.value := fun h => by
    rw [value_lt_value, word, word]
    omega
  have hgt : d'.exponent < d.exponent ∨
      d.exponent = d'.exponent ∧ d'.significand < d.significand → d'.value < d.value := fun h => by
    rw [value_lt_value, word, word]
    omega
  rcases lt_trichotomy d.exponent d'.exponent with he | he | he
  · rw [compare_lt_iff_lt.mpr he, compare_lt_iff_lt.mpr (hlt (.inl he))]
    rfl
  · rw [compare_eq_iff_eq.mpr he]
    rcases lt_trichotomy d.significand d'.significand with hs | hs | hs
    · rw [compare_lt_iff_lt.mpr hs, compare_lt_iff_lt.mpr (hlt (.inr ⟨he, hs⟩))]
      rfl
    · rw [hs, value, value, he, hs, compare_eq_iff_eq.mpr rfl, compare_eq_iff_eq.mpr rfl]
      rfl
    · rw [compare_gt_iff_gt.mpr hs, compare_gt_iff_gt.mpr (hgt (.inr ⟨he, hs⟩))]
      rfl
  · rw [compare_gt_iff_gt.mpr he, compare_gt_iff_gt.mpr (hgt (.inl he))]
    rfl

/-- On finite doubles the host's order is the order of the numbers. -/
theorem compare_unpacked {s s' : Bool} {d d' : Digits} (h : d.word < infinityPlace)
    (h' : d'.word < infinityPlace) :
    (d.unpacked s).compare (d'.unpacked s') =
      some (compare (signed s d.value) (signed s' d'.value)) := by
  have hpos : ∀ {c : Digits}, c.significand ≠ 0 → 0 < c.value := fun hc =>
    lt_of_le_of_ne (Digits.value_nonneg _) (Ne.symm (mt (Digits.value_eq_zero_iff _).mp hc))
  have hneg : ∀ {c : Digits}, c.significand ≠ 0 → -c.value < 0 := fun hc =>
    neg_lt_zero.mpr (hpos hc)
  rw [Digits.unpacked, Digits.unpacked, if_pos h, if_pos h']
  by_cases h₀ : d.significand = 0 <;> by_cases h₀' : d'.significand = 0
  · rw [dif_pos h₀, dif_pos h₀', (Digits.value_eq_zero_iff d).mpr h₀,
      (Digits.value_eq_zero_iff d').mpr h₀', signed_zero, signed_zero, compare_eq_iff_eq.mpr rfl]
    rfl
  · rw [dif_pos h₀, dif_neg h₀', (Digits.value_eq_zero_iff d).mpr h₀, signed_zero]
    cases s'
    · exact congrArg some (compare_lt_iff_lt.mpr (hpos h₀')).symm
    · exact congrArg some (compare_gt_iff_gt.mpr (hneg h₀')).symm
  · rw [dif_neg h₀, dif_pos h₀', (Digits.value_eq_zero_iff d').mpr h₀', signed_zero]
    cases s
    · exact congrArg some (compare_gt_iff_gt.mpr (hpos h₀)).symm
    · exact congrArg some (compare_lt_iff_lt.mpr (hneg h₀)).symm
  · rw [dif_neg h₀, dif_neg h₀']
    cases s <;> cases s'
    · exact congrArg some (Digits.compare_then d d')
    · exact congrArg some (compare_gt_iff_gt.mpr ((hneg h₀').trans (hpos h₀))).symm
    · exact congrArg some (compare_lt_iff_lt.mpr ((hneg h₀).trans (hpos h₀'))).symm
    · have hswap : compare (-d.value) (-d'.value) = (compare d.value d'.value).swap := by
        rcases lt_trichotomy d.value d'.value with hv | hv | hv
        · rw [compare_lt_iff_lt.mpr hv, compare_gt_iff_gt.mpr (neg_lt_neg hv)]
          rfl
        · rw [hv, compare_eq_iff_eq.mpr rfl, compare_eq_iff_eq.mpr rfl]
          rfl
        · rw [compare_gt_iff_gt.mpr hv, compare_lt_iff_lt.mpr (neg_lt_neg hv)]
          rfl
      exact congrArg some ((congrArg Ordering.swap (Digits.compare_then d d')).trans hswap.symm)

variable {x y : Float} {p q : ℚ}

theorem compare_eq (hx : rational? x = some p) (hy : rational? y = some q) :
    x.toModel.unpack.compare y.toModel.unpack = some (compare p q) := by
  obtain ⟨s, d, h, rfl, rfl⟩ := exists_ofDigits_of_rational? hx
  obtain ⟨s', d', h', rfl, rfl⟩ := exists_ofDigits_of_rational? hy
  rw [unpack_ofDigits, unpack_ofDigits, compare_unpacked h h']

theorem lt_iff (hx : rational? x = some p) (hy : rational? y = some q) : x < y ↔ p < q := by
  show decide (x.toModel.unpack.lt y.toModel.unpack = true) = true ↔ _
  rw [decide_eq_true_iff, UnpackedFloat.lt, compare_eq hx hy, beq_iff_eq, Option.some_inj,
    compare_lt_iff_lt]

theorem le_iff (hx : rational? x = some p) (hy : rational? y = some q) : x ≤ y ↔ p ≤ q := by
  show decide (x.toModel.unpack.le y.toModel.unpack = true) = true ↔ _
  rw [decide_eq_true_iff, UnpackedFloat.le, compare_eq hx hy, Option.any_some,
    Ordering.isLE_iff_ne_gt, compare_gt_iff_gt, not_lt]

theorem beq_iff (hx : rational? x = some p) (hy : rational? y = some q) : x == y ↔ p = q := by
  show x.toModel.unpack.beq y.toModel.unpack = true ↔ _
  rw [UnpackedFloat.beq, compare_eq hx hy, beq_iff_eq, Option.some_inj, compare_eq_iff_eq]

theorem rational?_zero : rational? 0 = some 0 := rfl

theorem beq_zero_eq_false (hx : rational? x = some p) (hp : p ≠ 0) : (x == 0) = false :=
  Bool.eq_false_iff.mpr (mt (beq_iff hx rational?_zero).mp hp)

theorem eq_of_toNat_toBits {x y : Float} (h : x.toBits.toNat = y.toBits.toNat) : x = y :=
  Float.toBits_inj.mp (UInt64.toNat_inj.mp h)

/-- The digits of 0 give the two zeros. -/
theorem ofDigits_of_word_eq_zero {s : Bool} {d : Digits} (h : d.word = 0) :
    ofDigits s d = if s then -0 else 0 := by
  refine eq_of_toNat_toBits ?_
  rw [toNat_toBits_ofDigits, h]
  cases s <;> decide

/-- The digits from `infinityPlace` on give the two infinities. -/
theorem ofDigits_of_le {s : Bool} {d : Digits} (h : infinityPlace ≤ d.word) :
    ofDigits s d = if s then -infinity else infinity := by
  refine eq_of_toNat_toBits ?_
  rw [toNat_toBits_ofDigits, min_eq_right h]
  cases s <;> decide

theorem isNegative_ofDigits (s : Bool) (d : Digits) : isNegative (ofDigits s d) = s := by
  rcases lt_or_ge d.word infinityPlace with h | h
  · rcases Nat.eq_zero_or_pos d.word with h₀ | h₀
    · rw [ofDigits_of_word_eq_zero h₀]
      cases s <;> decide
    · -- the number itself shows the sign
      have hx := rational?_ofDigits (s := s) h
      have hpos : 0 < d.value := d.value_pos_iff.mpr h₀
      have hne : signed s d.value ≠ 0 := by
        rw [← abs_pos, abs_signed, abs_of_pos hpos]
        exact hpos
      rw [isNegative, beq_zero_eq_false hx hne, Bool.false_and, Bool.or_false]
      cases s
      · exact decide_eq_false (mt (lt_iff hx rational?_zero).mp hpos.not_gt)
      · exact decide_eq_true ((lt_iff hx rational?_zero).mpr (neg_lt_zero.mpr hpos))
  · rw [ofDigits_of_le h]
    cases s <;> decide

theorem neg_ofDigits (s : Bool) (d : Digits) : -ofDigits s d = ofDigits (!s) d := by
  show Float.ofModel (Float.Model.pack (ofDigits s d).toModel.unpack.neg) = _
  rw [unpack_ofDigits, ← pack_unpacked, Digits.unpacked, Digits.unpacked]
  split
  · split <;> cases s <;> rfl
  · cases s <;> rfl

/-- The double with this sign and this number is the only one. -/
theorem eq_of_rational? (hx : rational? x = some p) (hy : rational? y = some p)
    (hs : isNegative x = isNegative y) : x = y := by
  obtain ⟨s, d, -, rfl, hp⟩ := exists_ofDigits_of_rational? hx
  obtain ⟨s', d', -, rfl, hp'⟩ := exists_ofDigits_of_rational? hy
  rw [isNegative_ofDigits, isNegative_ofDigits] at hs
  subst hs
  rw [Digits.value_injective (signed_injective s (hp.symm.trans hp'))]

/-- The digits of a number are the only ones in its form. -/
theorem eq_ofDigits_of_abs_eq {d : Digits} (hx : rational? x = some p) (hd : |p| = d.value) :
    x = ofDigits (isNegative x) d := by
  obtain ⟨s, c, -, rfl, rfl⟩ := exists_ofDigits_of_rational? hx
  rw [abs_signed, abs_of_nonneg c.value_nonneg] at hd
  rw [isNegative_ofDigits, Digits.value_injective hd]

theorem isNegative_of_ne_zero (hx : rational? x = some p) (hp : p ≠ 0) :
    isNegative x = decide (p < 0) := by
  obtain ⟨s, d, -, rfl, rfl⟩ := exists_ofDigits_of_rational? hx
  have hd : 0 < d.value := lt_of_le_of_ne d.value_nonneg fun h => hp (by rw [← h, signed_zero])
  rw [isNegative_ofDigits]
  cases s
  · exact (decide_eq_false hd.not_gt).symm
  · exact (decide_eq_true (neg_lt_zero.mpr hd)).symm

theorem isNegative_of_pos (hx : rational? x = some p) (hp : 0 < p) : isNegative x = false := by
  rw [isNegative_of_ne_zero hx hp.ne']
  exact decide_eq_false hp.not_gt

theorem isNegative_of_neg (hx : rational? x = some p) (hp : p < 0) : isNegative x = true := by
  rw [isNegative_of_ne_zero hx hp.ne]
  exact decide_eq_true hp

/-- Off the zeros the number alone names the double. -/
theorem eq_of_rational?_of_ne_zero (hx : rational? x = some p) (hy : rational? y = some p)
    (hp : p ≠ 0) : x = y := by
  refine eq_of_rational? hx hy ?_
  rw [isNegative_of_ne_zero hx hp, isNegative_of_ne_zero hy hp]

/-- A number under the sign of its double. -/
theorem signed_isNegative (hx : rational? x = some p) : signed (isNegative x) |p| = p := by
  obtain ⟨s, d, -, rfl, rfl⟩ := exists_ofDigits_of_rational? hx
  rw [isNegative_ofDigits, abs_signed, abs_of_nonneg d.value_nonneg]

theorem rational?_neg (hx : rational? x = some p) : rational? (-x) = some (-p) := by
  obtain ⟨s, d, h, rfl, rfl⟩ := exists_ofDigits_of_rational? hx
  rw [neg_ofDigits, rational?_ofDigits h, signed_not]

theorem isNegative_neg (hx : x.isNaN = false) : isNegative (-x) = !isNegative x := by
  obtain ⟨s, d, -, rfl⟩ := exists_eq_ofDigits hx
  rw [neg_ofDigits, isNegative_ofDigits, isNegative_ofDigits]

theorem isNaN_of_rational? (hx : rational? x = some p) : x.isNaN = false := by
  obtain ⟨s, d, -, rfl, -⟩ := exists_ofDigits_of_rational? hx
  exact isNaN_ofDigits s d

theorem isInf_of_rational? (hx : rational? x = some p) : x.isInf = false := by
  obtain ⟨s, d, h, rfl, -⟩ := exists_ofDigits_of_rational? hx
  rw [isInf_ofDigits]
  exact decide_eq_false (not_le.mpr h)

/-- There is one NaN. -/
theorem eq_notANumber (hx : x.isNaN = true) : x = notANumber := by
  rw [Float.isNaN_eq_decide_eq_nan, decide_eq_true_eq] at hx
  exact hx.trans (by decide)

/-- Every double is NaN, one of the infinities, or a number. -/
theorem double_cases (x : Float) :
    x = notANumber ∨ x = infinity ∨ x = -infinity ∨ ∃ p, rational? x = some p := by
  cases hx : x.isNaN with
  | true => exact .inl (eq_notANumber hx)
  | false =>
      obtain ⟨s, d, -, rfl⟩ := exists_eq_ofDigits hx
      rcases lt_or_ge d.word infinityPlace with h | h
      · exact .inr (.inr (.inr ⟨_, rational?_ofDigits h⟩))
      · rw [ofDigits_of_le h]
        cases s
        · exact .inr (.inl rfl)
        · exact .inr (.inr (.inl rfl))

/-- A double without a significand of its own: NaN, an infinity or a zero. -/
def IsSpecial (x : Float) : Prop :=
  x.isNaN = true ∨ x.isInf = true ∨ rational? x = some 0

theorem isSpecial_or_ne_zero (x : Float) : IsSpecial x ∨ ∃ p, rational? x = some p ∧ p ≠ 0 := by
  rcases double_cases x with rfl | rfl | rfl | ⟨p, hx⟩
  · exact .inl (.inl (by decide))
  · exact .inl (.inr (.inl (by decide)))
  · exact .inl (.inr (.inl (by decide)))
  · by_cases hp : p = 0
    · exact .inl (.inr (.inr (by rw [hx, hp])))
    · exact .inr ⟨p, hx, hp⟩

end FloatWord
