/-!
# The exact value of a float
-/

namespace Markers

/-- The number `significand * 2 ^ exponent`: a finite float without its sign. -/
structure Dyadic where
  significand : Nat
  exponent : Int
  /-- The float below is half as far away as the float above. -/
  narrowBelow : Bool
  deriving DecidableEq, Repr

/-- Is the sign bit set? -/
def isNegative (x : Float) : Bool :=
  x.toBits >>> 63 = 1

namespace Dyadic

/-- The magnitude of a finite float. -/
def ofFloat (x : Float) : Dyadic :=
  let scale := (x.toBits >>> 52 &&& 0x7ff).toNat
  let fraction := (x.toBits &&& 0xfffffffffffff).toNat
  if scale = 0 then ⟨fraction, -1074, false⟩
  else ⟨0x10000000000000 + fraction, scale - 1075, fraction = 0 ∧ 1 < scale⟩

/-- The number as a natural number, if it is one. -/
def nat? (d : Dyadic) : Option Nat :=
  let unit := Nat.pow 2 (-d.exponent).toNat
  if d.significand % unit = 0 then some (d.significand / unit * Nat.pow 2 d.exponent.toNat)
  else none

end Dyadic

/-- The integer that a float holds exactly, if it holds one. -/
def wholeNumber? (x : Float) : Option Int :=
  if x.isFinite then
    (Dyadic.ofFloat x).nat?.map fun n => if isNegative x then -(n : Int) else n
  else none

end Markers
