import Markers.Decimal.Shortest
import Markers.Destination
import Markers.Literal

/-!
# Conversion errors
-/

namespace Markers

/-- A number that does not fit its destination. -/
inductive Excess where
  | whole (value : Int)
  /-- A finite float. -/
  | real (value : Float)

instance : ToString Excess where
  toString
    | .whole n => toString n
    | .real x => shortestText x

/-- Why a literal does not convert. -/
inductive ConversionError where
  | noConverter (destination : Destination)
  | kindMismatch (destination : Destination) (found : Literal.Kind)
  | overflow (value : Excess) (destination : Destination)
  | length (expected found : Nat)
  | notScalar (code : Nat)
  | element (index : Nat) (cause : ConversionError)
  /-- An error of the application's own. -/
  | custom (message : String)

namespace ConversionError

def message : ConversionError → String
  | noConverter t => s!"no converter found for type {t}"
  | kindMismatch t found => s!"cannot convert a {found} value to {t}"
  | overflow v t => s!"value {v} overflows {t}"
  | length expected found =>
    s!"expected a string of exactly {expected} character(s), found {found}"
  | notScalar code =>
    "0x" ++ String.ofList (Nat.toDigits 16 code) ++ " is not a valid Unicode scalar value"
  | element index cause => s!"element {index} failed: {cause.message}"
  | custom m => m

/-- The error inside all list elements. -/
def root : ConversionError → ConversionError
  | element _ cause => cause.root
  | e => e

end ConversionError

end Markers
