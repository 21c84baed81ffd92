/-!
# Arithmetic — what a run is built on

The functions of this library multiply doubles and count in 32-bit integers.  Each of them is
written once, for any monad.  Its name ends in `Via`; a function that multiplies takes the
multiplication as a parameter, and what it does to integers are the steps of the monad
(`IntegerSteps`).  The function of the same name without `Via` multiplies with `times`, in `Id`,
where integers wrap around.

So the same code can run on the machine's product, on one with another rounding, or on one that
checks each product it is asked for; and on integers that wrap, or on integers that report an
overflow (`Checked`).  A run in `Recorded` gives beside its value the pairs that it multiplied.
-/

namespace FloatWord

variable {M : Type → Type}

/-! ### Products -/

/-- The product of the machine, rounded to nearest. -/
def times [Monad M] (a b : Float) : M Float := pure (a * b)

theorem foldlM_times [Monad M] [LawfulMonad M] (l : List Float) (x : Float) :
    l.foldlM times x = (pure (l.foldl (· * ·) x) : M Float) :=
  List.foldlM_pure

/-- A value, and the pairs that were multiplied for it, in order. -/
structure Recorded (α : Type) where
  value : α
  products : List (Float × Float)

instance : Monad Recorded where
  pure a := ⟨a, []⟩
  bind r f := ⟨(f r.value).value, r.products ++ (f r.value).products⟩

/-- The product of the machine, put on record. -/
def recordedTimes (a b : Float) : Recorded Float := ⟨a * b, [(a, b)]⟩

/-! ### Integers -/

/-- The steps that a run takes on integers.  Where the result of the machine is the exact one, a
step gives it; elsewhere the monad decides. -/
class IntegerSteps (M : Type → Type) [Monad M] where
  add : Int32 → Int32 → M Int32
  sub : Int32 → Int32 → M Int32
  /-- A word without the lowest places. -/
  shift : UInt64 → Int32 → M UInt64
  /-- An integer as a word. -/
  cast : Int32 → M UInt64
  add_eq : ∀ {a b}, (a + b).toInt = a.toInt + b.toInt → add a b = pure (a + b)
  sub_eq : ∀ {a b}, (a - b).toInt = a.toInt - b.toInt → sub a b = pure (a - b)
  shift_eq : ∀ {m k}, 0 ≤ k.toInt → k.toInt < 64 →
    shift m k = pure (m >>> k.toNatClampNeg.toUInt64)
  cast_eq : ∀ {k}, 0 ≤ k.toInt → cast k = pure k.toNatClampNeg.toUInt64

namespace IntegerSteps

theorem ofInt_toInt {k : Int32} (hk : 0 ≤ k.toInt) :
    UInt64.ofInt k.toInt = k.toNatClampNeg.toUInt64 := by
  have hlt := k.toInt_lt
  rw [← Int32.toNat_toInt, UInt64.ofInt, Int.emod_eq_of_lt hk (by omega)]

/-- Integers that wrap around: a result out of range loses its upper bits, and so does a number of
places. -/
@[reducible]
def wrapping (M : Type → Type) [Monad M] : IntegerSteps M where
  add a b := pure (a + b)
  sub a b := pure (a - b)
  shift m k := pure (m >>> UInt64.ofInt k.toInt)
  cast k := pure (UInt64.ofInt k.toInt)
  add_eq _ := rfl
  sub_eq _ := rfl
  shift_eq hk _ := by rw [ofInt_toInt hk]
  cast_eq hk := by rw [ofInt_toInt hk]

end IntegerSteps

instance : IntegerSteps Id := .wrapping Id

instance : IntegerSteps Option := .wrapping Option

instance : IntegerSteps Recorded := .wrapping Recorded

/-- The step that was out of range. -/
inductive Overflow where
  | add
  | sub
  | shift
  | cast
  deriving DecidableEq, Repr

/-- A run that stops at the first integer step out of range, as a program does that checks its
integers. -/
abbrev Checked := Except Overflow

instance : IntegerSteps Checked where
  add a b := if (a + b).toInt = a.toInt + b.toInt then .ok (a + b) else .error .add
  sub a b := if (a - b).toInt = a.toInt - b.toInt then .ok (a - b) else .error .sub
  shift m k :=
    if 0 ≤ k.toInt ∧ k.toInt < 64 then .ok (m >>> k.toNatClampNeg.toUInt64) else .error .shift
  cast k := if 0 ≤ k.toInt then .ok k.toNatClampNeg.toUInt64 else .error .cast
  add_eq h := if_pos h
  sub_eq h := if_pos h
  shift_eq h h' := if_pos ⟨h, h'⟩
  cast_eq h := if_pos h

end FloatWord
