import Markers.Literal
import Markers.Literal.Integer

/-!
# Numeric literals

A numeric literal is an integer, else a decimal float, else a complex number: a real part, a signed
imaginary part and a closing `i`.
-/

namespace Markers

/-- What a numeric literal denotes. -/
inductive Number where
  | int (value : Int64)
  | float (value : Float)
  | complex (re im : Float)

namespace Number

/-- Why a text is no numeric literal. -/
inductive Error where
  | outOfRange (text : String)
  | malformed (text : String)
  | imaginaryFirst (text : String)
  | realMissing (text : String)
  | invalidReal (part text : String)
  | invalidImaginary (part text : String)
  deriving DecidableEq, Repr

def Error.message : Error → String
  | outOfRange t => s!"integer literal '{t}' out of range"
  | malformed t => s!"invalid numeric literal '{t}'"
  | imaginaryFirst t =>
    s!"invalid complex literal '{t}': the imaginary part must follow the real part"
  | realMissing t =>
    s!"invalid complex literal '{t}': a real part is required before the imaginary part"
  | invalidReal p t => s!"invalid real part '{p}' in complex literal '{t}'"
  | invalidImaginary p t => s!"invalid imaginary part '{p}' in complex literal '{t}'"

/-- Reads a decimal float. A numeral beyond the largest float is none. -/
def float? (text : List Char) : Option Float :=
  ((Numeral.ofChars? text).map Numeral.toFloat).filter Float.isFinite

/-- Reads a part of a complex number: an integer or a decimal float. -/
def real? (text : List Char) : Option Float :=
  match Integer.ofChars text with
  | .ok v => some (Float.ofInt v.toInt)
  | .error _ => float? text

/-- Splits a text at its last sign that does not stand behind an exponent mark; `before` is the
character in front of the text. -/
def splitLastSign (before : Char) : List Char → Option (List Char × List Char)
  | [] => none
  | c :: cs =>
    match splitLastSign c cs with
    | some (front, back) => some (c :: front, back)
    | none =>
      if (c = '+' ∨ c = '-') ∧ before ≠ 'e' ∧ before ≠ 'E' then some ([], c :: cs) else none

/-- Splits the parts of a complex number, of which the first is not empty. -/
def splitParts : List Char → Option (List Char × List Char)
  | [] => none
  | c :: cs => (splitLastSign c cs).map fun (front, back) => (c :: front, back)

/-- Reads an imaginary part without its `i`; a bare sign stands for one unit. -/
def imaginary? : List Char → Option Float
  | ['+'] => some 1
  | ['-'] => some (-1)
  | text => real? text

/-- Reads the two parts of a complex literal. -/
def complexParts (text : List Char) : Except Error (Float × Float) :=
  let shown := String.ofList text
  if text.getLast? ≠ some 'i' then
    .error (if 'i' ∈ text then .imaginaryFirst shown else .malformed shown)
  else match splitParts text.dropLast with
    | none => .error (.realMissing shown)
    | some (front, back) =>
      match real? front, imaginary? back with
      | none, _ => .error (.invalidReal (String.ofList front) shown)
      | some _, none => .error (.invalidImaginary (String.ofList back) shown)
      | some re, some im => .ok (re, im)

/-- Reads a numeric literal. Decimal digits beyond the integers make a float, and a complex number
without an imaginary part is its real part. -/
def ofChars (text : List Char) : Except Error Number :=
  match Integer.ofChars text, float? text with
  | .ok v, _ => .ok (.int v)
  | .error _, some x => .ok (.float x)
  | .error .outOfRange, none => .error (.outOfRange (String.ofList text))
  | .error .malformed, none =>
    match complexParts text with
    | .error e => .error e
    | .ok (re, im) => .ok (if im == 0 then .float re else .complex re im)

/-- Reads a numeric literal from a string. -/
def classify (text : String) : Except Error Number :=
  ofChars text.toList

def toLiteral : Number → Literal
  | int v => .int v
  | float x => .float x
  | complex re im => .complex re im

end Number

end Markers
