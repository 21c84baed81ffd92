import FloatWord.Layout
import FloatWord.FloatClass

/-!
# Fields — a word taken apart

`Fields.ofWord` reads the three fields of a word and `Fields.toWord` joins them again.  The fields
of a `Fields` may be wider than their places in the word: `toWord` keeps the low bits, `masked`
does the same in place, and the views (`floatClass`, `exponent?`, `significand?`) read the fields
as they are.
-/

namespace FloatWord

/-- The sign, biased exponent and mantissa of a word. -/
structure Fields where
  negative : Bool := false
  biasedExponent : UInt16 := 0
  mantissa : UInt64 := 0
  deriving DecidableEq, Repr

namespace Fields

/-- The fields cut down to 11 and 52 bits. -/
def masked (f : Fields) : Fields where
  negative := f.negative
  biasedExponent := f.biasedExponent &&& maxBiasedExponent
  mantissa := f.mantissa &&& mantissaMask

/-- The fields of a word. -/
def ofWord (w : Word) : Fields where
  negative := w &&& signMask != 0
  biasedExponent := ((w &&& exponentMask) >>> mantissaBits.toUInt64).toUInt16
  mantissa := w &&& mantissaMask

/-- The word with these fields, each cut down to its place. -/
def toWord (f : Fields) : Word :=
  (if f.negative then signMask else 0) |||
    (f.biasedExponent &&& maxBiasedExponent).toUInt64 <<< mantissaBits.toUInt64 |||
    f.mantissa &&& mantissaMask

theorem toWord_masked (f : Fields) : f.masked.toWord = f.toWord := by
  simp only [toWord, masked, UInt16.and_assoc, UInt64.and_assoc, UInt16.and_self, UInt64.and_self]
  rfl

/-- The class that the exponent and mantissa spell out. -/
def floatClass (f : Fields) : FloatClass :=
  if f.biasedExponent = 0 then
    if f.mantissa = 0 then .zero else .subnormal
  else if f.biasedExponent = maxBiasedExponent then
    if f.mantissa = 0 then .infinite else .nan
  else .normal

/-- An exponent field without the bias, and without the places of the mantissa. -/
def unbiasVia {M : Type → Type} [Monad M] [IntegerSteps M] (biased : Int32) : M Int32 := do
  let exponent ← IntegerSteps.sub biased exponentBias
  IntegerSteps.sub exponent (Int32.ofNat mantissaBits)

/-- The exponent `e` for which the magnitude is the significand times `2 ^ e`.  Only subnormal and
normal numbers have one, and all subnormal numbers share that of the smallest normal one. -/
def exponentVia? {M : Type → Type} [Monad M] [IntegerSteps M] (f : Fields) : M (Option Int32) :=
  match f.floatClass with
  | .subnormal => return some (← unbiasVia 1)
  | .normal => return some (← unbiasVia (Int32.ofNat f.biasedExponent.toNat))
  | _ => return none

/-- `exponentVia?` on integers that wrap around. -/
def exponent? (f : Fields) : Option Int32 := Id.run f.exponentVia?

theorem exponent?_eq (f : Fields) :
    f.exponent? =
      match f.floatClass with
      | .subnormal => some (1 - exponentBias - Int32.ofNat mantissaBits)
      | .normal =>
        some (Int32.ofNat f.biasedExponent.toNat - exponentBias - Int32.ofNat mantissaBits)
      | _ => none := by
  unfold exponent? exponentVia?
  cases f.floatClass <;> rfl

/-- The integer significand, with the implicit bit of a normal number in place. -/
def significand? (f : Fields) : Option UInt64 :=
  match f.floatClass with
  | .subnormal => some f.mantissa
  | .normal => some (f.mantissa ||| implicitBit)
  | _ => none

/-- All fields but those of a NaN other than `canonicalNaN`. -/
def isCanonical (f : Fields) : Bool :=
  f.floatClass != .nan || f.toWord == canonicalNaN

end Fields

end FloatWord
