import FloatWord.PowerOfTwo

/-!
# FloatClass — the sign and the kind of a double, by comparison

Nothing here looks at how a double is stored.  The sign of a zero shows in the infinity that is
its reciprocal; a NaN has no sign that arithmetic could show, so it counts as positive.

Two rules assign a class: `FloatClass.ofFloat` compares the value, and `Fields.floatClass` looks at
the fields of the word.
-/

namespace FloatWord

/-! ### The sign -/

/-- Whether `x` carries a negative sign, `-0.0` and `-∞` included. -/
def isNegative (x : Float) : Bool :=
  x < 0 || (x == 0 && 1 / x < 0)

/-- The value `x` with the sign of `s`. -/
def copySign (x s : Float) : Float :=
  if isNegative x != isNegative s then -x else x

/-- The value `x` with a positive sign. -/
def magnitude (x : Float) : Float :=
  if isNegative x then -x else x

/-! ### The class -/

/-- The magnitude class of a double. -/
inductive FloatClass where
  /-- Either zero. -/
  | zero
  /-- Nonzero and below every normal number, so without an implicit bit. -/
  | subnormal
  /-- Biased exponent between 1 and 2046. -/
  | normal
  /-- Either infinity. -/
  | infinite
  /-- Not a number. -/
  | nan
  deriving DecidableEq, Repr

/-- The smallest normal number, `2 ^ -1022`. -/
def minNormal : Float := twoPowNeg 1022

/-- The positive infinity. -/
def infinity : Float := 1 / 0

/-- The NaN. -/
def notANumber : Float := 0 / 0

/-- The class of a value. -/
def FloatClass.ofFloat (x : Float) : FloatClass :=
  if x.isNaN then .nan
  else if x == 0 then .zero
  else if x == infinity || x == -infinity then .infinite
  else if magnitude x < minNormal then .subnormal
  else .normal

end FloatWord
