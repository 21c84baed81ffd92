import FloatWord.PowerOfTwo

/-!
# Scale — times a power of two, rounded once

The factor `2 ^ n` is a double only for `n` between -1022 and 1023, so `scale` plans ahead
(`Staging.ofExponent`): up to two fixed factors first, and then one power of two that is a double.
On the way down the fixed factor is `2 ^ -969`, not the smallest one: it leaves 53 binades for the
last product, so a result among the subnormal numbers is rounded by that product alone.
-/

namespace FloatWord

/-- The largest power of two, `2 ^ 1023`. -/
def two1023 : Float := twoPow 1023

/-- The double `2 ^ -969`, which is `2 ^ 53` times the smallest normal number. -/
def twoNeg969 : Float := twoPowNeg 969

/-- A scaling laid out: the fixed factors, in order, and the exponent that is left for the last
product. -/
structure Staging where
  factors : List Float
  rest : Int32

variable {M : Type → Type} [Monad M] [IntegerSteps M]

/-- Lay out a scaling by `2 ^ n`.  What two fixed factors leave over is clamped: past the clamp
the result is an infinity or a zero anyway. -/
def Staging.ofExponentVia (n : Int32) : M Staging :=
  if 1023 < n then do
    let m ← IntegerSteps.sub n 1023
    if 1023 < m then do
      let rest ← IntegerSteps.sub m 1023
      return ⟨[two1023, two1023], min rest 1023⟩
    else return ⟨[two1023], m⟩
  else if n < -1022 then do
    let m ← IntegerSteps.add n 969
    if m < -1022 then do
      let rest ← IntegerSteps.add m 969
      return ⟨[twoNeg969, twoNeg969], max rest (-1022)⟩
    else return ⟨[twoNeg969], m⟩
  else return ⟨[], n⟩

/-- `ofExponentVia` on integers that wrap around. -/
def Staging.ofExponent (n : Int32) : Staging := Id.run (ofExponentVia n)

theorem Staging.ofExponent_eq (n : Int32) :
    ofExponent n =
      if 1023 < n then
        if 1023 < n - 1023 then ⟨[two1023, two1023], min (n - 1023 - 1023) 1023⟩
        else ⟨[two1023], n - 1023⟩
      else if n < -1022 then
        if n + 969 < -1022 then ⟨[twoNeg969, twoNeg969], max (n + 969 + 969) (-1022)⟩
        else ⟨[twoNeg969], n + 969⟩
      else ⟨[], n⟩ := by
  simp only [ofExponent, ofExponentVia, apply_ite Id.run, Id.run_bind, Id.run_pure]
  rfl

/-- The double nearest to `x * 2 ^ n`. -/
def scaleVia (mul : Float → Float → M Float) (x : Float) (n : Int32) : M Float := do
  let plan ← Staging.ofExponentVia n
  let y ← plan.factors.foldlM mul x
  let last ← exp2Via mul plan.rest
  mul y last

/-- `scaleVia` with the product of the machine. -/
def scale (x : Float) (n : Int32) : Float := Id.run (scaleVia times x n)

/-- The products of `scale`, from left to right. -/
theorem scale_eq (x : Float) (n : Int32) :
    scale x n =
      (Staging.ofExponent n).factors.foldl (· * ·) x * exp2 (Staging.ofExponent n).rest := by
  rw [scale, scaleVia]
  show Id.run (List.foldlM times x (Staging.ofExponent n).factors) * _ = _
  rw [foldlM_times]
  rfl

end FloatWord
