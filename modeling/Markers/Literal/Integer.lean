import Markers.Text
import Markers.Decimal.Numeral

/-!
# Integer literals

An integer literal is an optional sign and digits, in decimal or behind `0x`, `0o` or `0b`; digits
behind a leading zero are octal. A single underscore may stand between two digits and directly
behind the base.
-/

namespace Markers.Integer

/-- Why a text is no integer literal. -/
inductive Error where
  | malformed
  | outOfRange
  deriving DecidableEq, Repr

/-- The base of an unsigned literal, what is left of it behind the base, and whether that base is
written out, so that an underscore may follow. -/
def splitBase : List Char → Nat × Bool × List Char
  | '0' :: c :: cs =>
    if c = 'x' ∨ c = 'X' then (16, true, cs)
    else if c = 'o' ∨ c = 'O' then (8, true, cs)
    else if c = 'b' ∨ c = 'B' then (2, true, cs)
    else (8, true, c :: cs)
  | cs => (10, false, cs)

/-- The values of digits with underscores among them. The flag says that an underscore may come
next, which is also where the digits may end. -/
def digits? (base : Nat) : Bool → List Char → Option (List Nat)
  | separable, [] => if separable then some [] else none
  | separable, c :: cs =>
    if c = '_' then
      if separable then digits? base false cs else none
    else do
      let d ← digit? base c
      let ds ← digits? base true cs
      return d :: ds

/-- The number that an unsigned literal denotes. -/
def magnitude? (body : List Char) : Option Nat :=
  let (base, separable, cs) := splitBase body
  match digits? base separable cs with
  | none | some [] => none
  | some ds => some (ofDigits base ds)

/-- The number that a literal denotes, of whatever size. -/
def value? (text : List Char) : Option Int :=
  let (negative, body) := splitSign text
  (magnitude? body).map fun n => if negative then -(n : Int) else n

/-- Reads an integer literal of 64 bits. -/
def ofChars (text : List Char) : Except Error Int64 :=
  match value? text with
  | none => .error .malformed
  | some v =>
    if Int64.minValue.toInt ≤ v ∧ v ≤ Int64.maxValue.toInt then .ok (.ofInt v)
    else .error .outOfRange

end Markers.Integer
