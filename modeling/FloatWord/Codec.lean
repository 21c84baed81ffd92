import FloatWord.Fields
import FloatWord.Packing
import FloatWord.Scale

/-!
# Codec — doubles to words and back, by arithmetic alone

`encode` splits a double and packs the parts into the binary64 word; `decode` reads the fields of
a word and scales the significand by the exponent.  Neither looks at how the host stores a double.
Every word decodes, and every NaN encodes to `canonicalNaN`.
-/

namespace FloatWord

variable {M : Type → Type} [Monad M] [IntegerSteps M]

/-- The word of a double. -/
def encodeVia (mul : Float → Float → M Float) (x : Float) : M Word :=
  let negative := copySign 1 x == -1
  let sign := if negative then signMask else 0
  match FloatClass.ofFloat x with
  | .zero => pure sign
  | .infinite => pure (sign ||| infinityWord)
  | .nan => pure canonicalNaN
  | .subnormal | .normal => do
    let s ← Split.ofFloatVia mul (if negative then -x else x)
    s.packVia mul sign

/-- `encodeVia` with the product of the machine. -/
def encode (x : Float) : Word := Id.run (encodeVia times x)

theorem encode_eq (x : Float) :
    encode x =
      let negative := copySign 1 x == -1
      let sign := if negative then signMask else 0
      match FloatClass.ofFloat x with
      | .zero => sign
      | .infinite => sign ||| infinityWord
      | .nan => canonicalNaN
      | .subnormal | .normal => (Split.ofFloat (if negative then -x else x)).pack sign := by
  unfold encode encodeVia
  cases FloatClass.ofFloat x <;> rfl

/-- The double of a word.  The sign and payload of a NaN are dropped. -/
def decodeVia (mul : Float → Float → M Float) (w : Word) : M Float :=
  let sign : Float := if w &&& signMask != 0 then -1 else 1
  let unsigned := w &&& ~~~signMask
  if unsigned = 0 then pure (copySign 0 sign)
  else if unsigned = infinityWord then pure (copySign infinity sign)
  else do
    let f := Fields.ofWord unsigned
    let exponent? ← f.exponentVia?
    match f.significand?, exponent? with
    | some significand, some exponent => do
      let y ← scaleVia mul significand.toFloat exponent
      return copySign y sign
    | _, _ => pure notANumber

/-- `decodeVia` with the product of the machine. -/
def decode (w : Word) : Float := Id.run (decodeVia times w)

theorem decode_eq (w : Word) :
    decode w =
      let sign : Float := if w &&& signMask != 0 then -1 else 1
      let unsigned := w &&& ~~~signMask
      if unsigned = 0 then copySign 0 sign
      else if unsigned = infinityWord then copySign infinity sign
      else
        let f := Fields.ofWord unsigned
        match f.significand?, f.exponent? with
        | some significand, some exponent => copySign (scale significand.toFloat exponent) sign
        | _, _ => notANumber := by
  simp only [decode, decodeVia, apply_ite Id.run]
  split
  · rfl
  · split
    · rfl
    · split <;> rfl

end FloatWord
