/-!
# Layout — the binary64 word

```text
 63 | 62 ........ 52 | 51 ..................... 0
sign  biased exponent            mantissa
```

The masks of the three fields, the words with a name of their own, and the order of the words.
-/

namespace FloatWord

/-- The 64-bit word that stands for a double. -/
abbrev Word := UInt64

/-- Bit 63. -/
def signMask : Word := 0x8000000000000000

/-- Bits 62 to 52. -/
def exponentMask : Word := 0x7FF0000000000000

/-- Bits 51 to 0. -/
def mantissaMask : Word := 0x000FFFFFFFFFFFFF

/-- The leading significand bit of a normal number, which its mantissa leaves out. -/
def implicitBit : Word := 0x0010000000000000

/-- The word of `+∞`: every exponent bit set, no mantissa bit. -/
def infinityWord : Word := 0x7FF0000000000000

/-- The one word that stands for NaN on the way out. -/
def canonicalNaN : Word := 0x7FF8000000000000

/-- A word that stands for NaN: every exponent bit set, and some mantissa bit. -/
def IsNaNWord (w : Word) : Prop :=
  w &&& exponentMask = exponentMask ∧ w &&& mantissaMask ≠ 0

instance : DecidablePred IsNaNWord := fun w =>
  inferInstanceAs (Decidable (w &&& exponentMask = exponentMask ∧ w &&& mantissaMask ≠ 0))

/-- What the exponent field adds to the binary exponent of a normal number. -/
def exponentBias : Int32 := 1023

/-- The width of the mantissa field. -/
def mantissaBits : Nat := 52

/-- The largest biased exponent: infinities and NaNs. -/
def maxBiasedExponent : UInt16 := 0x7FF

/-- The 63 low bits of a word as a number, negative if the sign bit is set.  On the words of numbers
the order of the keys is the order of the doubles, and both zeros have the key 0. -/
def orderKey (w : Word) : Int :=
  if w &&& signMask = 0 then (w &&& ~~~signMask).toNat
  else -((w &&& ~~~signMask).toNat : Int)

end FloatWord
