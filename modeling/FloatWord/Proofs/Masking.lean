import FloatWord.Proofs.FieldViews

/-!
# Proofs — Masking — fields wider than their places

A `Fields` holds 16 bits of exponent and 64 bits of mantissa, and a word has places for 11 and 52 of
them.  Joining drops the rest, and so do the words that come out: what is joined and taken apart
again is `masked` (`Fields.ofWord_toWord`), which changes nothing where the fields are in place
(`Fields.masked_eq_self_iff`).  So two `Fields` are joined to one word if and only if they are
masked to one `Fields`, and nothing runs from one place into the next (`joining_masks`).

The views do not mask.  `Fields.Legible` is what it takes for them to be right about the word all
the same: the exponent is in place, and the class hides what the mantissa has beyond its place.  A
normal number has its implicit bit set in any case, and a NaN shows nothing of its mantissa as long
as some bit in place is left.  What is in place is legible.  4095 in the exponent field is not: it
looks like a normal number, and the word is that of an infinity or of a NaN.
-/

namespace FloatWord

/-! ### Bits in place -/

theorem and_maxBiasedExponent_eq_self_iff (b : UInt16) :
    b &&& maxBiasedExponent = b ↔ b ≤ maxBiasedExponent := by
  have hmax : maxBiasedExponent.toNat = 2 ^ 11 - 1 := by decide
  rw [← UInt16.toNat_inj, toNat_and_maxBiasedExponent, UInt16.le_iff_toNat_le, hmax]
  omega

theorem and_mantissaMask_eq_self_iff (m : UInt64) :
    m &&& mantissaMask = m ↔ m ≤ mantissaMask := by
  have hmask : mantissaMask.toNat = 2 ^ 52 - 1 := by decide
  rw [← UInt64.toNat_inj, toNat_and_mantissaMask, UInt64.le_iff_toNat_le, hmask]
  omega

/-- With the implicit bit set, masking is seen above that bit only. -/
theorem and_mantissaMask_or_implicitBit_iff (m : UInt64) :
    m &&& mantissaMask ||| implicitBit = m ||| implicitBit ↔ m ≤ mantissaMask ||| implicitBit := by
  have hfull : (mantissaMask ||| implicitBit).toNat = 2 ^ 53 - 1 := by decide
  have hlow := toNat_and_mantissaMask m
  have hset : (m &&& mantissaMask ||| implicitBit).toNat = 2 ^ 52 + m.toNat % 2 ^ 52 := by
    rw [toNat_or_implicitBit (by omega), hlow]
  rw [UInt64.le_iff_toNat_le, hfull]
  constructor
  · intro h
    have hle : m.toNat ≤ (m ||| implicitBit).toNat := by
      rw [UInt64.toNat_or]
      exact Nat.left_le_or
    rw [← h, hset] at hle
    omega
  · intro h
    rcases lt_or_ge m.toNat (2 ^ 52) with hlt | hge
    · have hself : m &&& mantissaMask = m := UInt64.toNat_inj.mp (by omega)
      rw [hself]
    · -- the bit is there already
      have hself : m &&& mantissaMask ||| implicitBit = m := UInt64.toNat_inj.mp (by omega)
      calc m &&& mantissaMask ||| implicitBit
        _ = m &&& mantissaMask ||| implicitBit ||| implicitBit := by
            rw [UInt64.or_assoc, UInt64.or_self]
        _ = m ||| implicitBit := by rw [hself]

namespace Fields
variable {f g : Fields}

/-! ### Joining and taking apart -/

/-- The exponent and the mantissa are no wider than their places in the word. -/
def InPlace (f : Fields) : Prop :=
  f.biasedExponent ≤ maxBiasedExponent ∧ f.mantissa ≤ mantissaMask

instance : DecidablePred InPlace := fun f =>
  inferInstanceAs (Decidable (f.biasedExponent ≤ maxBiasedExponent ∧ f.mantissa ≤ mantissaMask))

theorem masked_eq_self_iff (f : Fields) : f.masked = f ↔ f.InPlace := by
  obtain ⟨negative, b, m⟩ := f
  rw [masked, mk.injEq, InPlace, and_maxBiasedExponent_eq_self_iff, and_mantissaMask_eq_self_iff]
  exact and_iff_right rfl

/-- What is joined and taken apart again is masked. -/
theorem ofWord_toWord (f : Fields) : ofWord f.toWord = f.masked := by
  have hword := toNat_toWord f
  have hsign : (ofWord f.toWord).negative = f.negative := by
    show (f.toWord &&& signMask != 0) = _
    rw [and_signMask_bne, hword]
    cases f.negative
    · exact decide_eq_false (by rw [if_neg Bool.false_ne_true]; omega)
    · exact decide_eq_true (by rw [if_pos rfl]; omega)
  have hexp : (ofWord f.toWord).biasedExponent = f.biasedExponent &&& maxBiasedExponent := by
    refine UInt16.toNat_inj.mp ?_
    rw [toNat_biasedExponent, toNat_and_maxBiasedExponent, hword]
    split <;> omega
  have hmant : (ofWord f.toWord).mantissa = f.mantissa &&& mantissaMask := by
    refine UInt64.toNat_inj.mp ?_
    rw [toNat_mantissa, toNat_and_mantissaMask, hword]
    split <;> omega
  rw [masked, ← hsign, ← hexp, ← hmant]

theorem toWord_eq_toWord_iff : f.toWord = g.toWord ↔ f.masked = g.masked := by
  constructor
  · intro h
    rw [← ofWord_toWord, ← ofWord_toWord, h]
  · intro h
    rw [← toWord_masked f, ← toWord_masked g, h]

end Fields

/-- **Joining masks, and loses nothing else.**  A word taken apart and joined is the word.  Fields
that are joined and taken apart come out masked, and so unchanged if and only if they are in place.
Two `Fields` are joined to one word if and only if they are masked to one `Fields`. -/
theorem joining_masks :
    (∀ w, (Fields.ofWord w).toWord = w) ∧
    (∀ f : Fields, Fields.ofWord f.toWord = f.masked ∧
      (Fields.ofWord f.toWord = f ↔
        f.biasedExponent ≤ maxBiasedExponent ∧ f.mantissa ≤ mantissaMask)) ∧
    ∀ f g : Fields, f.toWord = g.toWord ↔ f.masked = g.masked := by
  refine ⟨toWord_ofWord, fun f => ⟨f.ofWord_toWord, ?_⟩, fun f g => Fields.toWord_eq_toWord_iff⟩
  rw [f.ofWord_toWord]
  exact f.masked_eq_self_iff

/-! ### The views of masked fields -/

/-- The views of fields in this class do not show what the mantissa has beyond its place. -/
def FloatClass.Hides (c : FloatClass) (m : UInt64) : Prop :=
  match c with
  | .zero | .infinite => True
  | .subnormal => m ≤ mantissaMask
  | .normal => m ≤ mantissaMask ||| implicitBit
  | .nan => m &&& mantissaMask ≠ 0

instance (c : FloatClass) (m : UInt64) : Decidable (c.Hides m) :=
  match c with
  | .zero | .infinite => .isTrue trivial
  | .subnormal => inferInstanceAs (Decidable (m ≤ mantissaMask))
  | .normal => inferInstanceAs (Decidable (m ≤ mantissaMask ||| implicitBit))
  | .nan => inferInstanceAs (Decidable (m &&& mantissaMask ≠ 0))

namespace Fields
variable {f : Fields}

/-- The views of the fields are those of the word: the exponent is in place, and what the mantissa
has beyond its place does not show. -/
def Legible (f : Fields) : Prop :=
  f.biasedExponent ≤ maxBiasedExponent ∧ f.floatClass.Hides f.mantissa

instance : DecidablePred Legible := fun f =>
  inferInstanceAs (Decidable (f.biasedExponent ≤ maxBiasedExponent ∧ f.floatClass.Hides f.mantissa))

theorem InPlace.legible (h : f.InPlace) : f.Legible := by
  obtain ⟨hb, hm⟩ := h
  refine ⟨hb, ?_⟩
  cases hclass : f.floatClass with
  | zero | infinite => trivial
  | subnormal => exact hm
  | normal => exact UInt64.le_trans hm (by decide)
  | nan =>
      obtain ⟨-, hne⟩ := (f.floatClass_eq_iff .nan).mp hclass
      show f.mantissa &&& mantissaMask ≠ 0
      rwa [(and_mantissaMask_eq_self_iff _).mpr hm]

theorem Legible.masked_biasedExponent (h : f.Legible) :
    f.masked.biasedExponent = f.biasedExponent :=
  (and_maxBiasedExponent_eq_self_iff _).mpr h.1

theorem Legible.masked_floatClass (h : f.Legible) : f.masked.floatClass = f.floatClass := by
  have hb := h.masked_biasedExponent
  obtain ⟨-, hm⟩ := h
  cases hclass : f.floatClass with
  | zero | infinite =>
      obtain ⟨hexp, hzero⟩ := (f.floatClass_eq_iff _).mp hclass
      refine (f.masked.floatClass_eq_iff _).mpr ⟨hb.trans hexp, ?_⟩
      rw [masked, hzero, UInt64.zero_and]
  | subnormal =>
      obtain ⟨hexp, hne⟩ := (f.floatClass_eq_iff _).mp hclass
      rw [hclass] at hm
      refine (f.masked.floatClass_eq_iff _).mpr ⟨hb.trans hexp, ?_⟩
      rwa [masked, (and_mantissaMask_eq_self_iff _).mpr hm]
  | normal =>
      obtain ⟨hne, hne'⟩ := (f.floatClass_eq_iff _).mp hclass
      exact (f.masked.floatClass_eq_iff _).mpr ⟨hb ▸ hne, hb ▸ hne'⟩
  | nan =>
      obtain ⟨hexp, -⟩ := (f.floatClass_eq_iff _).mp hclass
      rw [hclass] at hm
      exact (f.masked.floatClass_eq_iff _).mpr ⟨hb.trans hexp, hm⟩

theorem Legible.masked_exponent? (h : f.Legible) : f.masked.exponent? = f.exponent? := by
  rw [exponent?_eq, exponent?_eq, h.masked_floatClass, h.masked_biasedExponent]

theorem Legible.masked_significand? (h : f.Legible) : f.masked.significand? = f.significand? := by
  rw [significand?, significand?, h.masked_floatClass]
  obtain ⟨-, hm⟩ := h
  cases hclass : f.floatClass with
  | zero | infinite | nan => rfl
  | subnormal =>
      rw [hclass] at hm
      exact congrArg some ((and_mantissaMask_eq_self_iff _).mpr hm)
  | normal =>
      rw [hclass] at hm
      exact congrArg some ((and_mantissaMask_or_implicitBit_iff _).mpr hm)

theorem masked_isCanonical (h : f.masked.floatClass = f.floatClass) :
    f.masked.isCanonical = f.isCanonical := by
  rw [isCanonical, isCanonical, h, toWord_masked]

/-- The exponent of a normal number tells the field that it comes from. -/
theorem biasedExponent_eq {g : Fields}
    (h : Int32.ofNat f.biasedExponent.toNat - exponentBias - Int32.ofNat mantissaBits =
      Int32.ofNat g.biasedExponent.toNat - exponentBias - Int32.ofNat mantissaBits) :
    f.biasedExponent = g.biasedExponent := by
  have hexp := toInt_unbiased f
  rw [h, toInt_unbiased g] at hexp
  exact UInt16.toNat_inj.mp (by omega)

/-- Fields that mask to what has the same class, exponent and significand are legible. -/
theorem legible_of_masked (hclass : f.masked.floatClass = f.floatClass)
    (hexp : f.masked.exponent? = f.exponent?) (hsig : f.masked.significand? = f.significand?) :
    f.Legible := by
  rw [exponent?_eq, exponent?_eq, hclass] at hexp
  rw [significand?, significand?, hclass] at hsig
  rw [Legible]
  cases h : f.floatClass with
  | zero | infinite =>
      obtain ⟨hb, -⟩ := (f.floatClass_eq_iff _).mp h
      rw [hb]
      exact ⟨by decide, trivial⟩
  | subnormal =>
      obtain ⟨hb, -⟩ := (f.floatClass_eq_iff _).mp h
      rw [h] at hsig
      rw [hb]
      exact ⟨by decide, (and_mantissaMask_eq_self_iff _).mp (Option.some.inj hsig)⟩
  | normal =>
      rw [h] at hexp hsig
      have hb := biasedExponent_eq (Option.some.inj hexp)
      exact ⟨(and_maxBiasedExponent_eq_self_iff _).mp hb,
        (and_mantissaMask_or_implicitBit_iff _).mp (Option.some.inj hsig)⟩
  | nan =>
      obtain ⟨hb, -⟩ := (f.floatClass_eq_iff _).mp h
      obtain ⟨-, hm⟩ := (f.masked.floatClass_eq_iff _).mp (hclass.trans h)
      rw [hb]
      exact ⟨by decide, hm⟩

end Fields

/-- The words that decoding and encoding keep are the canonical ones. -/
theorem encode_decode_eq_self_iff (w : Word) :
    encode (decode w) = w ↔ (IsNaNWord w → w = canonicalNaN) := by
  rw [encode_decode_eq_ite, ite_eq_right_iff, eq_comm]

/-- **The views describe the word of the fields that are legible, and of no others.**  The class,
the exponent, the significand and the verdict on being canonical are those of the word, and the
verdict tells whether some double is encoded to it, if and only if the exponent is in place and the
class hides what the mantissa has beyond its place.  Fields in place are legible. -/
theorem views_describe_word_iff (f : Fields) :
    (f.floatClass = (Fields.ofWord f.toWord).floatClass ∧
        f.exponent? = (Fields.ofWord f.toWord).exponent? ∧
        f.significand? = (Fields.ofWord f.toWord).significand? ∧
        f.isCanonical = (Fields.ofWord f.toWord).isCanonical ∧
        (f.isCanonical = true ↔ ∃ x, encode x = f.toWord) ↔
      f.Legible) ∧
    (f.biasedExponent ≤ maxBiasedExponent ∧ f.mantissa ≤ mantissaMask → f.Legible) := by
  rw [f.ofWord_toWord]
  refine ⟨⟨?_, fun h => ?_⟩, Fields.InPlace.legible⟩
  · rintro ⟨hclass, hexp, hsig, -⟩
    exact Fields.legible_of_masked hclass.symm hexp.symm hsig.symm
  · have hcanonical := Fields.masked_isCanonical h.masked_floatClass
    refine ⟨h.masked_floatClass.symm, h.masked_exponent?.symm, h.masked_significand?.symm,
      hcanonical.symm, ?_⟩
    rw [← hcanonical, ← f.ofWord_toWord, isCanonical_ofWord, exists_encode_eq_iff,
      encode_decode_eq_self_iff]

/-- A normal number with its implicit bit set, and a NaN of more bits than there are places. -/
theorem views_describe_word_edges :
    (⟨false, 1, 0x10000000000000⟩ : Fields).significand? =
        (Fields.ofWord (⟨false, 1, 0x10000000000000⟩ : Fields).toWord).significand? ∧
      (∃ x, encode x = (⟨false, 0x7FF, 0xFFF8000000000000⟩ : Fields).toWord) ∧
      (⟨true, 0x7FF, 0xFFFFFFFFFFFFF⟩ : Fields).Legible := by
  obtain ⟨hnormal, -⟩ := views_describe_word_iff ⟨false, 1, 0x10000000000000⟩
  obtain ⟨hnan, -⟩ := views_describe_word_iff ⟨false, 0x7FF, 0xFFF8000000000000⟩
  obtain ⟨-, hplace⟩ := views_describe_word_iff ⟨true, 0x7FF, 0xFFFFFFFFFFFFF⟩
  obtain ⟨-, -, hsig, -⟩ := hnormal.mpr ⟨by decide, by decide⟩
  obtain ⟨-, -, -, -, hencoded⟩ := hnan.mpr ⟨by decide, by decide⟩
  exact ⟨hsig, hencoded.mp (by decide), hplace (by decide)⟩

/-- With 4095 in the exponent field the views see a normal number, and call canonical what is the
word of a NaN that no double is encoded to. -/
theorem views_of_wide_exponent :
    let f : Fields := ⟨false, 0xFFF, 1⟩
    f.floatClass ≠ (Fields.ofWord f.toWord).floatClass ∧
      f.exponent? ≠ (Fields.ofWord f.toWord).exponent? ∧
      f.significand? ≠ (Fields.ofWord f.toWord).significand? ∧
      f.isCanonical ≠ (Fields.ofWord f.toWord).isCanonical ∧
      f.isCanonical = true ∧ ¬ ∃ x, encode x = f.toWord := by
  refine ⟨by decide, by decide, by decide, by decide, by decide, ?_⟩
  rw [exists_encode_eq_iff, encode_decode_eq_self_iff]
  decide

end FloatWord
