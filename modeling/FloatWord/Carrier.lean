import FloatWord.Codec

/-!
# Carrier — what travels as a word

Whatever stores or sends doubles as plain words can be generic over `WordCarried`.  `Carrier.hop`
loads a word as a value of one of the three types and stores it again, and `Carrier.hops` does so
along a route of types.
-/

namespace FloatWord

/-- A type whose values are stored as words. -/
class WordCarried (α : Type) where
  toWord : α → Word
  ofWord : Word → α

instance : WordCarried Word := ⟨id, id⟩

instance : WordCarried Float := ⟨encode, decode⟩

instance : WordCarried Fields := ⟨Fields.toWord, Fields.ofWord⟩

/-- The types that carry words. -/
inductive Carrier where
  | word
  | float
  | fields
  deriving DecidableEq, Repr

namespace Carrier

/-- A word loaded as a value of the type and stored again. -/
def hop : Carrier → Word → Word
  | .word, w => WordCarried.toWord (WordCarried.ofWord w : Word)
  | .float, w => WordCarried.toWord (WordCarried.ofWord w : Float)
  | .fields, w => WordCarried.toWord (WordCarried.ofWord w : Fields)

/-- A word through several types, one after the other. -/
def hops (route : List Carrier) (w : Word) : Word :=
  route.foldl (fun v c => c.hop v) w

end Carrier

end FloatWord
