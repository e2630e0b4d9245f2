import Markers.Literal

/-!
# Converted values
-/

namespace Markers

/-- A value in the representation that its destination type asks for. -/
inductive Value where
  | bool (value : Bool)
  | string (value : String)
  | char (value : Char)
  | u8 (value : UInt8)
  | u16 (value : UInt16)
  | u32 (value : UInt32)
  | u64 (value : UInt64)
  | i8 (value : Int8)
  | i16 (value : Int16)
  | i32 (value : Int32)
  | i64 (value : Int64)
  | f32 (value : Float32)
  | f64 (value : Float)
  | complex64 (re im : Float32)
  | complex128 (re im : Float)
  | bytes (value : List UInt8)
  | chars (value : List Char)
  | list (elements : List Value)
  /-- The literal as it was written. -/
  | literal (value : Literal)
  deriving Inhabited

namespace Value

def bool? : Value → Option Bool
  | bool b => some b
  | _ => none

def string? : Value → Option String
  | string s => some s
  | _ => none

/-- The number of an unsigned integer. -/
def unsigned? : Value → Option UInt64
  | u8 n => some n.toUInt64
  | u16 n => some n.toUInt64
  | u32 n => some n.toUInt64
  | u64 n => some n
  | _ => none

/-- The number of an integer, if it is one of 64 signed bits. -/
def signed? : Value → Option Int64
  | i8 n => some n.toInt64
  | i16 n => some n.toInt64
  | i32 n => some n.toInt64
  | i64 n => some n
  | u8 n => some (.ofNat n.toNat)
  | u16 n => some (.ofNat n.toNat)
  | u32 n => some (.ofNat n.toNat)
  | u64 n => if n.toNat < 0x8000000000000000 then some (.ofNat n.toNat) else none
  | _ => none

def float? : Value → Option Float
  | f32 x => some x.toFloat
  | f64 x => some x
  | _ => none

def complex? : Value → Option (Float × Float)
  | complex64 re im => some (re.toFloat, im.toFloat)
  | complex128 re im => some (re, im)
  | _ => none

def list? : Value → Option (List Value)
  | list vs => some vs
  | _ => none

def literal? : Value → Option Literal
  | literal x => some x
  | _ => none

end Value

end Markers
