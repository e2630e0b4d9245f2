import Markers.Decimal.Dyadic

/-!
# The shortest decimal text of a float

Of the decimals that round to a float, the text shows one with the fewest digits, and of those the
nearest. It is written out in full, without an exponent.
-/

namespace Markers

/-- The number `digits * 10 ^ exponent`. -/
structure Decimal where
  digits : Nat
  exponent : Int
  deriving DecidableEq, Repr

namespace Dyadic

/-- Compares `a * 10 ^ i` with `n * 2 ^ j`. -/
def compareScaled (a : Nat) (i : Int) (n : Nat) (j : Int) : Ordering :=
  compare (a * Nat.pow 10 i.toNat * Nat.pow 2 (-j).toNat)
    (n * Nat.pow 2 j.toNat * Nat.pow 10 (-i).toNat)

/-- Does the decimal lie among the numbers that round to the float, ties to even? Its two ends lie
halfway to the neighbouring floats, and belong to it when the significand is even. -/
def readsBack (x : Dyadic) (d : Decimal) : Bool :=
  let below := if x.narrowBelow then 4 * x.significand - 1 else 4 * x.significand - 2
  let low := compareScaled d.digits d.exponent below (x.exponent - 2)
  let high := compareScaled d.digits d.exponent (4 * x.significand + 2) (x.exponent - 2)
  let even := x.significand % 2 = 0
  (low = .gt || low = .eq && even) && (high = .lt || high = .eq && even)

/-- The number divided by `10 ^ i` and rounded down. -/
def floorAt (x : Dyadic) (i : Int) : Nat :=
  x.significand * Nat.pow 2 x.exponent.toNat * Nat.pow 10 (-i).toNat /
    (Nat.pow 2 (-x.exponent).toNat * Nat.pow 10 i.toNat)

/-- The nearer of the two neighbours on the grid of `10 ^ i` that read back, on a tie the upper. -/
def onGrid? (x : Dyadic) (i : Int) : Option Decimal :=
  let low : Decimal := ⟨x.floorAt i, i⟩
  let high : Decimal := ⟨low.digits + 1, i⟩
  match x.readsBack low, x.readsBack high with
  | true, true =>
    some (if compareScaled (low.digits + high.digits) i (2 * x.significand) x.exponent = .gt
      then low else high)
  | true, false => some low
  | false, true => some high
  | false, false => none

/-- The exponent of the leading decimal digit, for a number that is not zero. -/
def leadingExponent (x : Dyadic) : Int :=
  let guess : Int := (x.significand.log2 + x.exponent) * 30103 / 100000
  if x.floorAt (guess + 1) = 0 then guess else guess + 1

/-- The shortest decimal that reads back, from the power of ten above the number down to seventeen
digits, where there always is one; the exact value stands behind as a last resort. -/
def shortest (x : Dyadic) : Decimal :=
  let grids := (List.range 18).map fun n : Nat => x.leadingExponent + 1 - n
  match grids.findSome? x.onGrid? with
  | some d => d
  | none =>
    ⟨x.significand * Nat.pow 2 x.exponent.toNat * Nat.pow 5 (-x.exponent).toNat, min x.exponent 0⟩

end Dyadic

namespace Decimal

/-- The decimal written out, with a point only where digits follow it. -/
def positional (d : Decimal) : String :=
  if 0 ≤ d.exponent then toString (d.digits * Nat.pow 10 d.exponent.toNat)
  else
    let places := (-d.exponent).toNat
    let unit := Nat.pow 10 places
    let fraction := toString (d.digits % unit)
    let zeros := String.ofList (List.replicate (places - fraction.length) '0')
    s!"{d.digits / unit}.{zeros}{fraction}"

end Decimal

/-- The text of a finite float. -/
def shortestText (x : Float) : String :=
  let sign := if isNegative x then "-" else ""
  let d := Dyadic.ofFloat x
  if d.significand = 0 then s!"{sign}0" else sign ++ d.shortest.positional

end Markers
