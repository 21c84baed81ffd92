import FloatWord.FloatClass

/-!
# Split — a double as a fraction and a power of two

`Split.ofFloat x` finds the fraction of magnitude in `[0.5, 1)` and the exponent whose product is
`x`.  It scales by the entries of `steps`, down while the fraction is at least 1 and up while it
is below 1; the exponent moves the other way, so the value of the split stays `x` throughout.
-/

namespace FloatWord

/-- A fraction and a binary exponent; they stand for `fraction * 2 ^ exponent`. -/
structure Split where
  fraction : Float
  exponent : Int32

namespace Split

variable {M : Type → Type} [Monad M] [IntegerSteps M]

/-- The double `2 ^ 54`, which lifts every subnormal number among the normal ones. -/
def two54 : Float := twoPow 54

/-- Take `2 ^ t.shift` out of a fraction that reaches it. -/
def lowerVia (mul : Float → Float → M Float) (s : Split) (t : Step) : M Split :=
  if t.up ≤ s.fraction then do
    let fraction ← mul s.fraction t.down
    let exponent ← IntegerSteps.add s.exponent (Int32.ofNat t.shift)
    return ⟨fraction, exponent⟩
  else return s

/-- Put `2 ^ t.shift` into a fraction below `2 ^ -t.shift`. -/
def raiseVia (mul : Float → Float → M Float) (s : Split) (t : Step) : M Split :=
  if s.fraction < t.down then do
    let fraction ← mul s.fraction t.up
    let exponent ← IntegerSteps.sub s.exponent (Int32.ofNat t.shift)
    return ⟨fraction, exponent⟩
  else return s

/-- A positive double as a split whose fraction is a normal number. -/
def liftVia (mul : Float → Float → M Float) (x : Float) : M Split :=
  if x < minNormal then do
    let fraction ← mul x two54
    let exponent ← IntegerSteps.sub 0 54
    return ⟨fraction, exponent⟩
  else return ⟨x, 0⟩

/-- Bring the fraction of a positive split into `[0.5, 1)`.  From 1 up, the steps reach `[1, 2)`
and one halving remains. -/
def normalizeVia (mul : Float → Float → M Float) (s : Split) : M Split :=
  if 1 ≤ s.fraction then do
    let t ← steps.foldlM (lowerVia mul) s
    let fraction ← mul t.fraction 0.5
    let exponent ← IntegerSteps.add t.exponent 1
    return ⟨fraction, exponent⟩
  else steps.foldlM (raiseVia mul) s

/-- Split a double.  A zero, an infinity or a NaN is its own fraction, with exponent 0. -/
def ofFloatVia (mul : Float → Float → M Float) (x : Float) : M Split :=
  if x == 0 || x.isNaN || x == infinity || x == -infinity then return ⟨x, 0⟩
  else do
    let s ← liftVia mul (if x < 0 then -x else x)
    let t ← normalizeVia mul s
    return ⟨if x < 0 then -t.fraction else t.fraction, t.exponent⟩

/-- `ofFloatVia` with the product of the machine. -/
def ofFloat (x : Float) : Split := Id.run (ofFloatVia times x)

end Split

end FloatWord
