import FloatWord.Layout
import FloatWord.Split

/-!
# Packing — a split as a word

`Split.pack` turns the fraction of a split into an integer significand and places it in the word
by its exponent: a zero below -1084, shifted right among the subnormal numbers, with the implicit
bit dropped among the normal ones, an infinity above 1024.

The integer is found by adding `2 ^ 52`.  Between `2 ^ 52` and `2 ^ 53` the doubles are the
integers, so adding `2 ^ 52` to a smaller magnitude rounds it to an integer, and taking `2 ^ 52`
away again is exact.

Nothing keeps a caller from a fraction with a digit to carry under the highest exponent of all.
There the carry has no next exponent: `Split.pack` wraps around, and `Split.packChecked` reports it.
-/

namespace FloatWord

/-! ### The nearest integer -/

/-- The double `2 ^ 52`, from which on every double is an integer. -/
def two52 : Float := twoPow 52

/-- The integer nearest to `x`, the even one of two, with the sign of `x`.  From `2 ^ 52` on, and
for infinities and NaN, `x` itself. -/
def roundTiesEven (x : Float) : Float :=
  if x == 0 || !(magnitude x < two52) then x
  else copySign ((magnitude x + two52) - two52) x

/-! ### Significands -/

/-- An integer significand and the exponent of the fraction it was: the value is
`digits * 2 ^ (exponent - 53)`. -/
structure Significand where
  digits : UInt64
  exponent : Int32

variable {M : Type → Type} [Monad M] [IntegerSteps M]

namespace Significand

/-- Drop the lowest digit of a significand that reaches above the implicit bit, once. -/
def carryVia (s : Significand) : M Significand :=
  if mantissaMask ||| implicitBit < s.digits then do
    let exponent ← IntegerSteps.add s.exponent 1
    return ⟨s.digits >>> 1, exponent⟩
  else return s

/-- `carryVia` on integers that wrap around. -/
def carry (s : Significand) : Significand := Id.run s.carryVia

/-- The word of a significand, without a sign.  Bits that a right shift drops are lost; a full
significand shifted by one lands in the exponent field as the smallest normal number. -/
def toWordVia (s : Significand) : M Word :=
  if s.exponent < -1021 then
    if s.exponent < -1084 then return 0
    else do
      let places ← IntegerSteps.sub (-1021) s.exponent
      IntegerSteps.shift s.digits places
  else if 1024 < s.exponent then return infinityWord
  else do
    let biased ← IntegerSteps.add 1022 s.exponent
    let field ← IntegerSteps.cast biased
    return field <<< mantissaBits.toUInt64 ||| s.digits &&& mantissaMask

/-- `toWordVia` on integers that wrap around. -/
def toWord (s : Significand) : Word := Id.run s.toWordVia

end Significand

/-! ### Splits -/

namespace Split

/-- The double `2 ^ 53`, which makes an integer of every fraction in `[0.5, 1)`. -/
def two53 : Float := twoPow 53

/-- The significand of a split: its fraction as an integer, in units of `2 ^ -53`. -/
def significandVia (mul : Float → Float → M Float) (s : Split) : M Significand := do
  let product ← mul s.fraction two53
  return ⟨(roundTiesEven product).toUInt64, s.exponent⟩

/-- The word of a split, under the bits of `sign`. -/
def packVia (mul : Float → Float → M Float) (sign : Word) (s : Split) : M Word := do
  let t ← s.significandVia mul
  let u ← t.carryVia
  let w ← u.toWordVia
  return sign ||| w

/-- `packVia` with the product of the machine, on integers that wrap around. -/
def pack (sign : Word) (s : Split) : Word := Id.run (s.packVia times sign)

/-- `packVia` with the product of the machine, on integers that report an overflow. -/
def packChecked (sign : Word) (s : Split) : Checked Word := s.packVia times sign

theorem pack_eq (sign : Word) (s : Split) :
    s.pack sign =
      sign ||| (Id.run (s.significandVia times)).carry.toWord := by
  simp only [pack, packVia, Id.run_bind, Id.run_pure, Significand.carry, Significand.toWord]

end Split

end FloatWord
