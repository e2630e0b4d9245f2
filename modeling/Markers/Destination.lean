/-!
# Destination types

What the value of a marker is to become. The type is chosen by the application.
-/

namespace Markers

/-- A type that a value can be converted to. -/
inductive Destination where
  | bool
  | string
  /-- A character of eight bits. -/
  | byte
  /-- A Unicode scalar value. -/
  | rune
  | signed (width : Nat)
  | unsigned (width : Nat)
  | float (width : Nat)
  /-- Both parts together are `width` bits wide. -/
  | complex (width : Nat)
  | sequence (element : Destination)
  /-- Converts like the type it refers to. -/
  | reference (referent : Destination)
  /-- The literal as it was written. -/
  | any
  /-- A type of the application, for its own converters. -/
  | named (name : String)
  deriving DecidableEq, Repr

namespace Destination

/-- The text of a type in messages. -/
def display : Destination → String
  | bool => "bool"
  | string => "string"
  | byte => "byte"
  | rune => "rune"
  | signed w => s!"i{w}"
  | unsigned w => s!"u{w}"
  | float w => s!"f{w}"
  | complex w => s!"complex{w}"
  | sequence t => s!"[{t.display}]"
  | reference t => s!"&{t.display}"
  | any => "any"
  | named n => n

instance : ToString Destination := ⟨display⟩

/-- The type behind all outer references. -/
def dereferenced : Destination → Destination
  | reference t => t.dereferenced
  | t => t

/-- The element type of a sequence. -/
def element? : Destination → Option Destination
  | sequence t => some t
  | _ => none

/-- The least and the greatest number of an integer type of up to 64 bits; characters count as
numbers. -/
def bounds? : Destination → Option (Int × Int)
  | byte => some (0, 0xff)
  | rune => some (0, 0x10ffff)
  | signed w =>
    if 1 ≤ w ∧ w ≤ 64 then some (-(Nat.pow 2 (w - 1) : Int), (Nat.pow 2 (w - 1) : Int) - 1)
    else none
  | unsigned w => if 1 ≤ w ∧ w ≤ 64 then some (0, (Nat.pow 2 w : Int) - 1) else none
  | _ => none

/-- Is it a type of single characters? -/
def isCharacter (t : Destination) : Bool := t = byte || t = rune

end Destination

end Markers
