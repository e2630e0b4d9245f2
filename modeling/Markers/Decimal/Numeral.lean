import Markers.Text

/-!
# Decimal numerals

A decimal numeral is an optional sign, digits with at most one point among or around them, and an
optional exponent. There is at least one digit beside the point and, if there is an exponent, at
least one in it.
-/

namespace Markers

/-- The number `significand * 10 ^ exponent`, with a sign of its own so that zero has one too. -/
structure Numeral where
  negative : Bool
  significand : Nat
  exponent : Int
  deriving DecidableEq, Repr

/-- Splits an optional sign off a text: is it a minus, and what follows. -/
def splitSign : List Char → Bool × List Char
  | '-' :: cs => (true, cs)
  | '+' :: cs => (false, cs)
  | cs => (false, cs)

namespace Numeral

/-- Splits off the longest run of decimal digits, and gives their values. -/
def splitDigits (cs : List Char) : List Nat × List Char :=
  ((cs.takeWhile Char.isDigit).filterMap (digit? 10), cs.dropWhile Char.isDigit)

/-- The exponent that fills a text: nothing, or a mark, an optional sign and digits. -/
def exponent? : List Char → Option Int
  | [] => some 0
  | c :: cs =>
    let (negative, cs) := splitSign cs
    let (digits, rest) := splitDigits cs
    if (c = 'e' ∨ c = 'E') ∧ digits ≠ [] ∧ rest = [] then
      let n : Int := ofDigits 10 digits
      some (if negative then -n else n)
    else none

/-- Reads a numeral that fills a text. -/
def ofChars? (text : List Char) : Option Numeral :=
  let (negative, body) := splitSign text
  let (whole, rest) := splitDigits body
  let (fraction, rest) := match rest with
    | '.' :: cs => splitDigits cs
    | cs => ([], cs)
  if whole ++ fraction = [] then none
  else (exponent? rest).map fun e =>
    ⟨negative, ofDigits 10 (whole ++ fraction), e - fraction.length⟩

/-- The nearest float to the numeral without its sign. A significand `n` has at most `n.log2 + 1`
digits, so outside the two bounds the number is above every float or rounds to zero. -/
def magnitude (n : Numeral) : Float :=
  if n.significand = 0 ∨ n.exponent + n.significand.log2 < -400 then 0
  else if n.exponent > 400 then 1 / 0
  else Float.ofScientific n.significand (n.exponent < 0) n.exponent.natAbs

/-- The nearest float, ties to even; infinite where the number is beyond the largest one. -/
def toFloat (n : Numeral) : Float :=
  if n.negative then -n.magnitude else n.magnitude

end Numeral

end Markers
