import Markers.Conversion.Error
import Markers.Text
import Markers.Value

/-!
# Families of destinations

The library converts to seven families of types. A family first checks that a literal has a fitting
kind and then converts it; no conversion loses a digit of an integer or the size of a float.
-/

namespace Markers

/-- A family of types that the library itself converts to. -/
inductive Family where
  | list | bool | string | integer | float | complex | any
  deriving DecidableEq, Repr

namespace Family

/-- The families in the order in which they are asked for a type. -/
def all : List Family := [list, bool, string, integer, float, complex, any]

def name : Family → String
  | list => "list"
  | bool => "bool"
  | string => "string"
  | integer => "integer"
  | float => "float"
  | complex => "complex"
  | any => "any"

/-- Is the type one of those that hold a single literal of the family? -/
def holds : Family → Destination → Bool
  | bool, .bool => true
  | string, .string | string, .sequence .byte | string, .sequence .rune => true
  | integer, .byte | integer, .rune => true
  | integer, .signed w | integer, .unsigned w => w = 8 || w = 16 || w = 32 || w = 64
  | float, .float w => w = 32 || w = 64
  | complex, .complex w => w = 64 || w = 128
  | any, .any => true
  | _, _ => false

/-- Can the type be that of list elements? Sequences of characters are strings, not lists. -/
def isElement (t : Destination) : Bool :=
  !t.isCharacter && [bool, string, integer, float, complex, any].any (·.holds t)

/-- Does the family convert to the type? -/
def supports : Family → Destination → Bool
  | list, .sequence t => isElement t.dereferenced
  | f, t => f.holds t

/-- The family that converts to a type. -/
def find? (t : Destination) : Option Family :=
  all.find? (·.supports t)

/-- The error for a literal of the wrong kind. -/
def mismatch (x : Literal) (t : Destination) : ConversionError := .kindMismatch t x.kind

/-- The error for a float in place of an integer. Integers beyond the literals are read as floats,
so a whole number of that size is beyond the type's bounds rather than of the wrong kind. -/
def floatMismatch (x : Float) (t : Destination) : ConversionError :=
  match wholeNumber? x, t.bounds? with
  | some n, some (min, max) =>
    if (n < Int64.minValue.toInt ∨ Int64.maxValue.toInt < n) ∧ (n < min ∨ max < n) then
      .overflow (.whole n) t
    else mismatch (.float x) t
  | _, _ => mismatch (.float x) t

/-- Has the literal a kind that the family converts to the type? -/
def check (f : Family) (x : Literal) (t : Destination) : Except ConversionError Unit :=
  let expect (k : Literal.Kind) : Except ConversionError Unit :=
    if x.kind = k then .ok () else .error (mismatch x t)
  match f with
  | list => expect .list
  | bool => expect .bool
  | string => expect .string
  | float => expect .float
  | complex => expect .complex
  | any => .ok ()
  | integer =>
    match x with
    | .int _ => .ok ()
    | .string _ => if t.isCharacter then .ok () else .error (mismatch x t)
    | .float y => .error (floatMismatch y t)
    | _ => .error (mismatch x t)

/-! ### Strings -/

def ofString (s : String) : Destination → Except ConversionError Value
  | .string => .ok (.string s)
  | .sequence .byte => .ok (.bytes (s.toList.flatMap String.utf8EncodeChar))
  | .sequence .rune => .ok (.chars s.toList)
  | t => .error (.noConverter t)

/-! ### Integers -/

/-- The value of an integer type that holds a number within the type's bounds. -/
def ofBounded (n : Int) : Destination → Except ConversionError Value
  | .byte => .ok (.u8 (.ofNat n.toNat))
  | .rune =>
    match scalarValue? n.toNat with
    | some c => .ok (.char c)
    | none => .error (.notScalar n.toNat)
  | .unsigned 8 => .ok (.u8 (.ofNat n.toNat))
  | .unsigned 16 => .ok (.u16 (.ofNat n.toNat))
  | .unsigned 32 => .ok (.u32 (.ofNat n.toNat))
  | .unsigned 64 => .ok (.u64 (.ofNat n.toNat))
  | .signed 8 => .ok (.i8 (.ofInt n))
  | .signed 16 => .ok (.i16 (.ofInt n))
  | .signed 32 => .ok (.i32 (.ofInt n))
  | .signed 64 => .ok (.i64 (.ofInt n))
  | t => .error (.noConverter t)

/-- The value of an integer type that holds a number. -/
def ofInt (n : Int) (t : Destination) : Except ConversionError Value :=
  match t.bounds? with
  | none => .error (.noConverter t)
  | some (min, max) =>
    if n < min ∨ max < n then .error (.overflow (.whole n) t) else ofBounded n t

/-- The value of a character type that holds a string's only character. -/
def ofSingle (s : String) (t : Destination) : Except ConversionError Value :=
  match s.toList with
  | [c] => ofInt c.toNat t
  | cs => .error (.length 1 cs.length)

/-! ### Floats -/

/-- The largest finite number of 32 bits. -/
def maxFloat32 : Float := Float.ofScientific (0xffffff <<< 104) false 0

/-- The nearest float of 32 bits. A finite number beyond the largest one overflows. -/
def toFloat32 (x : Float) (t : Destination) : Except ConversionError Float32 :=
  if x.isFinite ∧ maxFloat32 < x.abs then .error (.overflow (.real x) t) else .ok x.toFloat32

def ofFloat (x : Float) : Destination → Except ConversionError Value
  | .float 32 => (toFloat32 x (.float 32)).map .f32
  | .float 64 => .ok (.f64 x)
  | t => .error (.noConverter t)

def ofComplex (re im : Float) : Destination → Except ConversionError Value
  | .complex 64 => do
    let re ← toFloat32 re (.complex 64)
    let im ← toFloat32 im (.complex 64)
    return .complex64 re im
  | .complex 128 => .ok (.complex128 re im)
  | t => .error (.noConverter t)

/-! ### Lists -/

/-- Converts the elements from an index on, up to the first that fails. -/
def ofElements (convert : Literal → Except ConversionError Value) (index : Nat) :
    List Literal → Except ConversionError (List Value)
  | [] => .ok []
  | x :: xs =>
    match convert x with
    | .error e => .error (.element index e)
    | .ok v => (ofElements convert (index + 1) xs).map (v :: ·)

/-- Converts a literal to a type by the rules of the family; `element` is the conversion to the
element type of a sequence. -/
def convert (f : Family) (element : Literal → Except ConversionError Value) (x : Literal)
    (t : Destination) : Except ConversionError Value :=
  match f, x with
  | list, .list xs =>
    match t.element? with
    | none => .error (.noConverter t)
    | some _ => (ofElements element 0 xs).map .list
  | bool, .bool b => .ok (.bool b)
  | string, .string s => ofString s t
  | integer, .int n => ofInt n.toInt t
  | integer, .string s => if t.isCharacter then ofSingle s t else .error (mismatch x t)
  | integer, .float y => .error (floatMismatch y t)
  | float, .float y => ofFloat y t
  | complex, .complex re im => ofComplex re im t
  | any, _ => .ok (.literal x)
  | _, _ => .error (mismatch x t)

end Family

end Markers
