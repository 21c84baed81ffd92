import FloatWord.Layout
import FloatWord.Arithmetic
import FloatWord.PowerOfTwo
import FloatWord.FloatClass
import FloatWord.Fields
import FloatWord.Split
import FloatWord.Scale
import FloatWord.Packing
import FloatWord.Codec
import FloatWord.Carrier
import FloatWord.Exact
import FloatWord.Proofs.Digits
import FloatWord.Proofs.Double
import FloatWord.Proofs.Nearest
import FloatWord.Proofs.Product
import FloatWord.Proofs.Representable
import FloatWord.Proofs.Powers
import FloatWord.Proofs.Scaling
import FloatWord.Proofs.Class
import FloatWord.Proofs.Sum
import FloatWord.Proofs.Rounding
import FloatWord.Proofs.Splitting
import FloatWord.Proofs.Normalizing
import FloatWord.Proofs.Packing
import FloatWord.Proofs.Encoding
import FloatWord.Proofs.Decoding
import FloatWord.Proofs.RoundTrip
import FloatWord.Proofs.Exactness
import FloatWord.Proofs.Recombining
import FloatWord.Proofs.Truncating
import FloatWord.Proofs.Ordering
import FloatWord.Proofs.Monotone
import FloatWord.Proofs.Projecting
import FloatWord.Proofs.FieldViews
import FloatWord.Proofs.Masking
import FloatWord.Proofs.Confining
import FloatWord.Proofs.Carrying
import FloatWord.Proofs.Rescaling
import FloatWord.Proofs.Composing
import FloatWord.Proofs.Doubling
import FloatWord.Proofs.FieldSplit
import FloatWord.Proofs.Symmetry
import FloatWord.Proofs.SignBit
import FloatWord.Proofs.IntegerRange
import FloatWord.Proofs.Collapsing
