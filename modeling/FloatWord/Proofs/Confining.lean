import FloatWord.Proofs.FieldViews
import FloatWord.Proofs.Ordering

/-!
# Proofs — Confining — packing stays below the sign

The conversion to an integer can give any 64 bits, if the fraction of the split is not one.  A
significand with the top bit set is too long, so the carry shifts it once, and 63 bits are left
(`Significand.carry_lt`).  The placement then has three ways, and none goes past the word of the
infinity: the shift to the right takes off one more bit at least, the mask leaves the exponent field
as it is, and the rest is that word itself (`Significand.toNat_toWord_le`).

The sign is added by an or.  Under a sign alone, the word is therefore not NaN, and it is the
encoding of its own double (`pack_confined`).  All this is about integers that wrap around; where
they report an overflow the words are the same, or there is none, and no sign changes that.
-/

namespace FloatWord

variable {sign w : Word}

/-! ### The place of any significand -/

namespace Significand

/-- The one shift of the carry clears the top bit. -/
theorem carry_lt (t : Significand) : t.carry.digits.toNat < 2 ^ 63 := by
  rw [carry_eq]
  split
  · have hlt := t.digits.toNat_lt
    rw [toNat_shiftRight_one]
    omega
  · rename_i hshort
    rw [implicitBit_lt_iff] at hshort
    omega

/-- With its top bit clear, a significand is placed no higher than the infinity. -/
theorem toNat_toWord_le {m : UInt64} (hm : m.toNat < 2 ^ 63) (e : Int32) :
    (toWord ⟨m, e⟩).toNat ≤ infinityPlace := by
  rcases lt_or_ge e.toInt (-1021) with hlow | hlow
  · have hpow : 2 ^ 1 ≤ 2 ^ (-1021 - e.toInt).toNat := Nat.pow_le_pow_right two_pos (by omega)
    calc (toWord ⟨m, e⟩).toNat
      _ = m.toNat / 2 ^ (-1021 - e.toInt).toNat := toNat_toWord_of_low m hlow
      _ ≤ m.toNat / 2 ^ 1 := Nat.div_le_div_left hpow two_pos
      _ ≤ infinityPlace := by
          rw [infinityPlace]
          omega
  rcases lt_or_ge 1024 e.toInt with hhigh | hhigh
  · rw [toWord_of_high m hhigh, toNat_infinityWord]
  · rw [toNat_toWord_of_middle m hlow hhigh, infinityPlace]
    omega

end Significand

/-! ### Under a sign -/

/-- A word without the top bit leaves the sign alone, -/
theorem or_and_signMask (sign : Word) (hw : w.toNat < 2 ^ 63) :
    (sign ||| w) &&& signMask = sign &&& signMask := by
  have htop := and_signMask_bne w
  rw [decide_eq_false (not_le.mpr hw), bne_eq_false_iff_eq] at htop
  refine UInt64.toNat_inj.mp ?_
  rw [UInt64.toNat_and, UInt64.toNat_or, Nat.and_or_distrib_right, ← UInt64.toNat_and,
    ← UInt64.toNat_and, htop, UInt64.toNat_zero, Nat.or_zero]

/-- and a sign alone leaves the place below it. -/
theorem place_or (hsign : sign = 0 ∨ sign = signMask) (hw : w.toNat < 2 ^ 63) :
    (sign ||| w).toNat % 2 ^ 63 = w.toNat := by
  have hplace : sign.toNat % 2 ^ 63 = 0 := by
    rcases hsign with rfl | rfl <;> decide
  rw [UInt64.toNat_or, Nat.or_mod_two_pow, hplace, Nat.zero_or, Nat.mod_eq_of_lt hw]

namespace Split

/-- Packing adds the same word to every sign, and it is at most that of the infinity. -/
theorem exists_pack_eq_or (t : Split) : ∃ w ≤ infinityWord, ∀ sign, t.pack sign = sign ||| w := by
  refine ⟨_, ?_, fun sign => t.pack_eq sign⟩
  rw [UInt64.le_iff_toNat_le, toNat_infinityWord]
  exact Significand.toNat_toWord_le (Significand.carry_lt _) _

/-- No sign makes the carry go past the highest exponent. -/
theorem packChecked_eq_or (t : Split) :
    (∀ sign, t.packChecked sign = .ok (t.pack sign)) ∨
      ∀ sign, t.packChecked sign = .error .add := by
  by_cases hw : (Id.run (t.significandVia times)).Wraps
  · exact .inr fun sign => by rw [packChecked_eq, if_pos hw]
  · exact .inl fun sign => by rw [packChecked_eq, if_neg hw]

end Split

/-- **Packing is confined to the bits below the sign**, whatever the fraction and the exponent.  It
adds to the sign a word that does not depend on it and is at most that of the infinity, and keeps
the top bit.  So under a sign alone the word is not NaN, its fields are canonical, and it is the
encoding of the double that it is decoded to.  On integers that report an overflow it gives the same
word under every sign, or reports the addition of the carry under every sign. -/
theorem pack_confined (t : Split) :
    (∃ w ≤ infinityWord, ∀ sign, t.pack sign = sign ||| w) ∧
      (∀ sign, t.pack sign &&& signMask = sign &&& signMask) ∧
      (∀ sign, sign = 0 ∨ sign = signMask →
        ¬ IsNaNWord (t.pack sign) ∧ (Fields.ofWord (t.pack sign)).isCanonical = true ∧
          encode (decode (t.pack sign)) = t.pack sign ∧ t.pack sign &&& signMask = sign) ∧
      ((∀ sign, t.packChecked sign = .ok (t.pack sign)) ∨
        ∀ sign, t.packChecked sign = .error .add) := by
  obtain ⟨w, hw, hpack⟩ := t.exists_pack_eq_or
  have hle : w.toNat ≤ infinityPlace := by
    rwa [UInt64.le_iff_toNat_le, toNat_infinityWord] at hw
  have hlt : w.toNat < 2 ^ 63 := hle.trans_lt (by decide)
  have hsign : ∀ sign, t.pack sign &&& signMask = sign &&& signMask := fun sign => by
    rw [hpack, or_and_signMask sign hlt]
  refine ⟨⟨w, hw, hpack⟩, hsign, fun sign halone => ?_, t.packChecked_eq_or⟩
  have hnan : ¬ IsNaNWord (t.pack sign) := by
    rw [isNaNWord_iff, hpack, place_or halone hlt]
    exact hle.not_gt
  refine ⟨hnan, (isCanonical_ofWord _).mpr fun h => absurd h hnan, encode_decode hnan, ?_⟩
  rw [hsign]
  rcases halone with rfl | rfl <;> decide

/-- A significand of 64 bits just below the normal numbers, and NaN under the highest exponent. -/
theorem pack_confined_edges :
    ¬ IsNaNWord (Split.pack 0 ⟨infinity, -1023⟩) ∧
      encode (decode (Split.pack signMask ⟨infinity, 1023⟩)) =
        Split.pack signMask ⟨infinity, 1023⟩ ∧
      Split.pack signMask ⟨notANumber, 2147483647⟩ &&& signMask = signMask := by
  obtain ⟨-, -, hlow, -⟩ := pack_confined ⟨infinity, -1023⟩
  obtain ⟨-, -, hmiddle, -⟩ := pack_confined ⟨infinity, 1023⟩
  obtain ⟨-, -, hhigh, -⟩ := pack_confined ⟨notANumber, 2147483647⟩
  exact ⟨(hlow 0 (.inl rfl)).1, (hmiddle signMask (.inr rfl)).2.2.1,
    (hhigh signMask (.inr rfl)).2.2.2⟩

end FloatWord
