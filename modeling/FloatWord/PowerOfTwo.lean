import FloatWord.Arithmetic

/-!
# PowerOfTwo — exact powers by doubling and halving

`twoPow` and `twoPowNeg` count up and down one binade at a time.  `exp2` reaches the same values
with at most ten multiplications, by the binary digits of the exponent, taken greedily from the
table `steps`.
-/

namespace FloatWord

/-- The double `2 ^ k`: `+∞` from `k = 1024` on. -/
def twoPow (k : Nat) : Float :=
  Nat.repeat (· * 2) k 1

/-- The double `2 ^ -k`: zero from `k = 1075` on. -/
def twoPowNeg (k : Nat) : Float :=
  Nat.repeat (· * 0.5) k 1

theorem twoPow_succ (k : Nat) : twoPow (k + 1) = twoPow k * 2 := rfl

theorem twoPowNeg_succ (k : Nat) : twoPowNeg (k + 1) = twoPowNeg k * 0.5 := rfl

/-- One binary digit of an exponent, with the factors that move a value by it. -/
structure Step where
  shift : Nat
  up : Float
  down : Float

/-- The step over `k` binades. -/
def Step.ofShift (k : Nat) : Step := ⟨k, twoPow k, twoPowNeg k⟩

/-- The ten binary digits of an exponent up to 1023, largest first. -/
def steps : List Step :=
  [512, 256, 128, 64, 32, 16, 8, 4, 2, 1].map Step.ofShift

/-- A power of two in the making: the product so far, and what is left of the exponent. -/
structure Decomposition where
  product : Float
  remaining : Nat

variable {M : Type → Type} [Monad M]

/-- Take the digit of `s` out of the exponent if it is there, upward or downward. -/
def Decomposition.takeVia (mul : Float → Float → M Float) (upward : Bool) (d : Decomposition)
    (s : Step) : M Decomposition :=
  if s.shift ≤ d.remaining then do
    let product ← mul d.product (if upward then s.up else s.down)
    return ⟨product, d.remaining - s.shift⟩
  else return d

/-- Decompose `2 ^ n` over the given steps, from 1. -/
def decomposeVia (mul : Float → Float → M Float) (n : Int32) (table : List Step) :
    M Decomposition :=
  table.foldlM (Decomposition.takeVia mul (decide (0 ≤ n))) ⟨1, n.abs.toNatClampNeg⟩

/-- The double `2 ^ n`, for `n` between -1022 and 1023. -/
def exp2Via (mul : Float → Float → M Float) (n : Int32) : M Float := do
  let d ← decomposeVia mul n steps
  return d.product

/-- `exp2Via` with the product of the machine. -/
def exp2 (n : Int32) : Float := Id.run (exp2Via times n)

/-- Of the decomposition only the product counts. -/
theorem exp2_eq (n : Int32) : exp2 n = (Id.run (decomposeVia times n steps)).product := by
  simp [exp2, exp2Via]

end FloatWord
