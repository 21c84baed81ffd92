import FloatWord.Layout
import FloatWord.Proofs.RoundTrip

/-!
# Proofs — Ordering — the words are in the order of the doubles

The ladder of places is in the order of the numbers, and `infinityPlace` holds `2 ^ 1024`, above
every finite double; so the host compares an infinity like that number (`compare_ofDigits`).
Under a sign the ladder goes on below zero (`signedPlace`), in the order of the signed numbers
(`signed_value_lt_iff`), and `orderKey` reads the signed place off a word (`orderKey_toBits`).  So
the doubles are in the order of their keys (`compare_eq_orderKey`), and the round trip carries
that to decoding and encoding (`codec_order_iso`).
-/

namespace FloatWord
open Float.Model (UnpackedFloat)

variable {s s' : Bool} {d d' : Digits} {x y : Float} {w : Word}

/-! ### The ladder in both directions -/

/-- The place of the digits under a sign. -/
def signedPlace (negative : Bool) (d : Digits) : ℤ := if negative then -d.word else d.word

theorem signed_value_lt_iff :
    signed s d.value < signed s' d'.value ↔ signedPlace s d < signedPlace s' d' := by
  have hlt : d.value < d'.value ↔ d.word < d'.word := Digits.value_lt_value
  have hgt : d'.value < d.value ↔ d'.word < d.word := Digits.value_lt_value
  have hpos := d.value_pos_iff; have hpos' := d'.value_pos_iff
  have hv := d.value_nonneg; have hv' := d'.value_nonneg
  simp only [signedPlace]
  generalize d.word = k at *
  generalize d'.word = k' at *
  cases s <;> cases s' <;> simp only [signed, if_true, if_false, Bool.false_eq_true]
  · rw [hlt, Int.ofNat_lt]
  · -- nothing nonnegative lies below zero
    exact ⟨fun h => by linarith, fun h => by omega⟩
  · -- unless both are zero
    refine ⟨fun h => ?_, fun h => ?_⟩
    · by_contra hk
      have hz := mt hpos.mp (by omega)
      have hz' := mt hpos'.mp (by omega)
      linarith
    · rcases (by omega : 0 < k ∨ 0 < k') with hk | hk
      · linarith [hpos.mpr hk]
      · linarith [hpos'.mpr hk]
  · rw [neg_lt_neg_iff, neg_lt_neg_iff, hgt, Int.ofNat_lt]

/-- The order of the numbers is the order of the places. -/
theorem compare_signed_value :
    compare (signed s d.value) (signed s' d'.value) =
      compare (signedPlace s d) (signedPlace s' d') := by
  rcases lt_trichotomy (signedPlace s d) (signedPlace s' d') with h | h | h
  · rw [compare_lt_iff_lt.mpr h, compare_lt_iff_lt.mpr (signed_value_lt_iff.mpr h)]
  · have heq : signed s d.value = signed s' d'.value :=
      le_antisymm (not_lt.mp (mt signed_value_lt_iff.mp h.not_gt))
        (not_lt.mp (mt signed_value_lt_iff.mp h.not_lt))
    rw [compare_eq_iff_eq.mpr h, compare_eq_iff_eq.mpr heq]
  · rw [compare_gt_iff_gt.mpr h, compare_gt_iff_gt.mpr (signed_value_lt_iff.mpr h)]

theorem abs_signedPlace (s : Bool) (d : Digits) : |signedPlace s d| = d.word := by
  rw [signedPlace]
  cases s <;> simp

/-! ### The order of the doubles -/

/-- A finite double stands between the infinities. -/
theorem compare_infinity_unpacked (t : Bool) (h : d.word < infinityPlace) :
    (UnpackedFloat.infinity (toSign t)).compare (d.unpacked s) =
        some (if t then .lt else .gt) ∧
      (d.unpacked s).compare (.infinity (toSign t)) = some (if t then .gt else .lt) := by
  rw [Digits.unpacked, if_pos h]
  split <;> cases t <;> exact ⟨rfl, rfl⟩

/-- The host compares an infinity like the number at `infinityPlace`. -/
theorem compare_ofDigits (h : d.word ≤ infinityPlace) (h' : d'.word ≤ infinityPlace) :
    (ofDigits s d).toModel.unpack.compare (ofDigits s' d').toModel.unpack =
      some (compare (signedPlace s d) (signedPlace s' d')) := by
  have hinf : ∀ {c : Digits} (t : Bool), c.word = infinityPlace →
      c.unpacked t = .infinity (toSign t) := fun t hc => if_neg (by rw [hc]; exact lt_irrefl _)
  have hside : ∀ {c : Digits} (t : Bool), c.word = infinityPlace →
      signedPlace t c = if t then -(infinityPlace : ℤ) else infinityPlace := fun t hc => by
    rw [signedPlace, hc]
  rw [unpack_ofDigits, unpack_ofDigits]
  rcases h.eq_or_lt with htop | hlt <;> rcases h'.eq_or_lt with htop' | hlt'
  · rw [hinf s htop, hinf s' htop', hside s htop, hside s' htop']
    cases s <;> cases s' <;> decide
  · have hbound := abs_lt.mp ((abs_signedPlace s' d').trans_lt (Int.ofNat_lt.mpr hlt'))
    rw [hinf s htop, hside s htop, (compare_infinity_unpacked s hlt').1]
    cases s
    · exact congrArg some (compare_gt_iff_gt.mpr hbound.2).symm
    · exact congrArg some (compare_lt_iff_lt.mpr hbound.1).symm
  · have hbound := abs_lt.mp ((abs_signedPlace s d).trans_lt (Int.ofNat_lt.mpr hlt))
    rw [hinf s' htop', hside s' htop', (compare_infinity_unpacked s' hlt).2]
    cases s'
    · exact congrArg some (compare_lt_iff_lt.mpr hbound.2).symm
    · exact congrArg some (compare_gt_iff_gt.mpr hbound.1).symm
  · rw [compare_unpacked hlt hlt', compare_signed_value]

/-! ### The key of a word -/

theorem orderKey_eq (w : Word) :
    orderKey w =
      if 2 ^ 63 ≤ w.toNat then -((w.toNat % 2 ^ 63 : ℕ) : ℤ) else (w.toNat % 2 ^ 63 : ℕ) := by
  have hsign := and_signMask_bne w
  rw [orderKey, toNat_and_not_signMask]
  by_cases h : 2 ^ 63 ≤ w.toNat
  · rw [decide_eq_true h, bne_iff_ne] at hsign
    rw [if_neg hsign, if_pos h]
  · rw [decide_eq_false h, bne_eq_false_iff_eq] at hsign
    rw [if_pos hsign, if_neg h]

theorem orderKey_toBits (h : d.word ≤ infinityPlace) (s : Bool) :
    orderKey (ofDigits s d).toBits = signedPlace s d := by
  have hs := le_toNat_toBits_ofDigits s d
  rw [orderKey_eq, toNat_toBits_ofDigits_mod, min_eq_left h, signedPlace]
  cases s
  · rw [if_neg (of_decide_eq_false hs), if_neg Bool.false_ne_true]
  · rw [if_pos (of_decide_eq_true hs), if_pos rfl]

/-- The host compares two doubles like the keys of their words. -/
theorem compare_eq_orderKey (hx : x.isNaN = false) (hy : y.isNaN = false) :
    x.toModel.unpack.compare y.toModel.unpack =
      some (compare (orderKey x.toBits) (orderKey y.toBits)) := by
  obtain ⟨s, d, h, rfl⟩ := exists_eq_ofDigits hx
  obtain ⟨s', d', h', rfl⟩ := exists_eq_ofDigits hy
  rw [compare_ofDigits h h', orderKey_toBits h, orderKey_toBits h']

/-- NaN is not in the order. -/
theorem isNaN_of_le (h : x ≤ y) : x.isNaN = false ∧ y.isNaN = false := by
  have hnan : notANumber.toModel.unpack = .notANumber :=
    unpack_nanWord (w := notANumber.toBits) (by decide)
  have hle : x.toModel.unpack.le y.toModel.unpack = true := of_decide_eq_true h
  constructor
  · by_contra hx
    rw [eq_notANumber (Bool.eq_true_of_not_eq_false hx), hnan] at hle
    cases hle
  · by_contra hy
    rw [eq_notANumber (Bool.eq_true_of_not_eq_false hy), hnan] at hle
    cases hx : x.toModel.unpack <;> rw [hx] at hle <;> cases hle

theorem lt_iff_orderKey (hx : x.isNaN = false) (hy : y.isNaN = false) :
    x < y ↔ orderKey x.toBits < orderKey y.toBits := by
  show decide (x.toModel.unpack.lt y.toModel.unpack = true) = true ↔ _
  rw [decide_eq_true_iff, UnpackedFloat.lt, compare_eq_orderKey hx hy, beq_iff_eq, Option.some_inj,
    compare_lt_iff_lt]

theorem le_iff_orderKey (hx : x.isNaN = false) (hy : y.isNaN = false) :
    x ≤ y ↔ orderKey x.toBits ≤ orderKey y.toBits := by
  show decide (x.toModel.unpack.le y.toModel.unpack = true) = true ↔ _
  rw [decide_eq_true_iff, UnpackedFloat.le, compare_eq_orderKey hx hy, Option.any_some,
    Ordering.isLE_iff_ne_gt, compare_gt_iff_gt, not_lt]

theorem beq_iff_orderKey (hx : x.isNaN = false) (hy : y.isNaN = false) :
    x == y ↔ orderKey x.toBits = orderKey y.toBits := by
  show x.toModel.unpack.beq y.toModel.unpack = true ↔ _
  rw [UnpackedFloat.beq, compare_eq_orderKey hx hy, beq_iff_eq, Option.some_inj, compare_eq_iff_eq]

/-! ### The order of the codec -/

theorem isNaN_decode (hw : ¬ IsNaNWord w) : (decode w).isNaN = false := by
  rw [isNaNWord_iff, not_lt] at hw
  rw [decode_of_le hw]
  exact isNaN_ofDigits _ _

theorem toBits_decode (hw : ¬ IsNaNWord w) : (decode w).toBits = w := by
  rw [← encode_eq_toBits (isNaN_decode hw), encode_decode hw]

theorem toNat_infinityWord : infinityWord.toNat = infinityPlace := by decide

theorem orderKey_of_le (h : w ≤ infinityWord) : ¬ IsNaNWord w ∧ orderKey w = w.toNat := by
  rw [UInt64.le_iff_toNat_le, toNat_infinityWord] at h
  have hplace : w.toNat < 2 ^ 63 := by
    rw [infinityPlace] at h
    omega
  rw [isNaNWord_iff, orderKey_eq, Nat.mod_eq_of_lt hplace, if_neg (not_le.mpr hplace)]
  exact ⟨not_lt.mpr h, rfl⟩

/-- Up to the word of `+∞` the doubles are in the order of the words. -/
theorem decode_lt_decode {a b : Word} (hab : a < b) (hb : b ≤ infinityWord) :
    decode a < decode b := by
  obtain ⟨hnan, hkey⟩ := orderKey_of_le (UInt64.le_trans (UInt64.le_of_lt hab) hb)
  obtain ⟨hnan', hkey'⟩ := orderKey_of_le hb
  rw [lt_iff_orderKey (isNaN_decode hnan) (isNaN_decode hnan'), toBits_decode hnan,
    toBits_decode hnan', hkey, hkey', Int.ofNat_lt]
  exact UInt64.lt_iff_toNat_lt.mp hab

/-- No double from zero up is skipped by the words up to that of `+∞`. -/
theorem exists_decode_beq (hx : 0 ≤ x) :
    ∃ w ≤ infinityWord, (decode w == x) = true ∧ (isNegative x = false → decode w = x) := by
  have hnan : x.isNaN = false := (isNaN_of_le hx).2
  obtain ⟨s, d, h, rfl⟩ := exists_eq_ofDigits hnan
  have hpos : 0 ≤ signedPlace s d := by
    rw [← orderKey_toBits h]
    exact (le_iff_orderKey (by decide) hnan).mp hx
  have hdecode : decode (encode (ofDigits false d)) = ofDigits false d :=
    decode_encode (isNaN_ofDigits _ _)
  refine ⟨encode (ofDigits false d), ?_, ?_, fun hs => ?_⟩
  · rw [encode_eq_toBits (isNaN_ofDigits _ _), UInt64.le_iff_toNat_le, toNat_toBits_ofDigits,
      toNat_infinityWord, if_neg Bool.false_ne_true, Nat.zero_add]
    exact min_le_right _ _
  · -- the other zero has the same key
    rw [hdecode, beq_iff_orderKey (isNaN_ofDigits _ _) hnan, orderKey_toBits h, orderKey_toBits h]
    have hplace := abs_of_nonneg hpos
    rw [abs_signedPlace] at hplace
    exact hplace
  · rw [isNegative_ofDigits] at hs
    rw [hdecode, hs]

/-- **The codec keeps the order.**  Two words that are not NaN are decoded to doubles in the order
of their keys, and to equal ones if the keys are equal; two doubles are in the order of the keys of
their words.  So from 0 to the word of `+∞` the doubles increase, and none from zero up is
skipped. -/
theorem codec_order_iso :
    (∀ a b : Word, ¬ IsNaNWord a → ¬ IsNaNWord b →
      (decode a < decode b ↔ orderKey a < orderKey b) ∧
      ((decode a == decode b) = true ↔ orderKey a = orderKey b)) ∧
    (∀ x y : Float, x.isNaN = false → y.isNaN = false →
      (x < y ↔ orderKey (encode x) < orderKey (encode y))) ∧
    (∀ a b : Word, a < b → b ≤ infinityWord → decode a < decode b) ∧
    ∀ x : Float, 0 ≤ x →
      ∃ w ≤ infinityWord, (decode w == x) = true ∧ (isNegative x = false → decode w = x) := by
  refine ⟨fun a b ha hb => ?_, fun x y hx hy => ?_, fun a b => decode_lt_decode,
    fun x => exists_decode_beq⟩
  · have hlt := lt_iff_orderKey (isNaN_decode ha) (isNaN_decode hb)
    have heq := beq_iff_orderKey (isNaN_decode ha) (isNaN_decode hb)
    rw [toBits_decode ha, toBits_decode hb] at hlt heq
    exact ⟨hlt, heq⟩
  · rw [encode_eq_toBits hx, encode_eq_toBits hy]
    exact lt_iff_orderKey hx hy

theorem codec_order_iso_edges :
    decode (infinityWord - 1) < decode infinityWord ∧
      (decode 0 == decode signMask) = true ∧ decode 0xFFF0000000000000 < decode 0x8000000000000001 ∧
      orderKey (encode (-infinity)) < orderKey (encode (-0)) ∧
      ∃ w ≤ infinityWord, (decode w == -0) = true := by
  obtain ⟨hword, hdouble, hmono, hall⟩ := codec_order_iso
  obtain ⟨w, hw, hbeq, -⟩ := hall (-0) (by decide)
  exact ⟨hmono _ _ (by decide) (by decide), (hword _ _ (by decide) (by decide)).2.mpr (by decide),
    (hword _ _ (by decide) (by decide)).1.mpr (by decide),
    (hdouble _ _ (by decide) (by decide)).mp (by decide), w, hw, hbeq⟩

end FloatWord
