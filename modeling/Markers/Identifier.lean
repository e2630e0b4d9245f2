/-!
# Marker identifiers

An identifier is three segments joined by colons. A segment starts with a lowercase letter, goes on
with lowercase letters, digits, dots and underscores, and ends in neither a dot nor an underscore.
Letters and digits are those of ASCII.
-/

namespace Markers

/-- An identifier, by its three segments. -/
structure Identifier where
  domain : String
  resource : String
  option : String
  deriving DecidableEq, Repr

namespace Identifier

instance : ToString Identifier := ⟨fun i => s!"{i.domain}:{i.resource}:{i.option}"⟩

/-- May the character stand behind the first one of a segment? -/
def isSegmentChar (c : Char) : Bool :=
  c.isLower || c.isDigit || c = '.' || c = '_'

/-- What is wrong with a segment. -/
inductive SegmentError where
  | empty
  | leadingDigit (segment : String)
  | leadingCharacter (segment : String)
  | invalidCharacter (character : Char) (segment : String)
  | trailingMark (segment : String)
  deriving DecidableEq, Repr

def SegmentError.message : SegmentError → String
  | empty => "empty segment"
  | leadingDigit s => s!"segment '{s}' must not start with a digit"
  | leadingCharacter s => s!"segment '{s}' must start with a lowercase letter"
  | invalidCharacter c s => s!"invalid character '{c}' in segment '{s}'"
  | trailingMark s => s!"segment '{s}' must not end with '.' or '_'"

/-- Why a text is no identifier. -/
inductive Error where
  | segmentCount (text : String) (found : Nat)
  | segment (text : String) (cause : SegmentError)
  deriving DecidableEq, Repr

def Error.message : Error → String
  | segmentCount text found =>
    s!"identifier '{text}' must have exactly three ':'-separated segments, found {found}"
  | segment text cause => s!"identifier '{text}': {cause.message}"

/-- The first fault of a segment, read from the left. -/
def segmentError? : List Char → Option SegmentError
  | [] => some .empty
  | c :: cs =>
    let segment := String.ofList (c :: cs)
    if c.isDigit then some (.leadingDigit segment)
    else if !c.isLower then some (.leadingCharacter segment)
    else match cs.find? (!isSegmentChar ·) with
      | some bad => some (.invalidCharacter bad segment)
      | none =>
        if cs.getLast? = some '.' ∨ cs.getLast? = some '_' then some (.trailingMark segment)
        else none

/-- Reads an identifier; of several faults the leftmost segment's is reported. -/
def ofChars (text : List Char) : Except Error Identifier :=
  match text.splitOn ':' with
  | [d, r, o] =>
    match [d, r, o].findSome? segmentError? with
    | some e => .error (.segment (String.ofList text) e)
    | none => .ok ⟨String.ofList d, String.ofList r, String.ofList o⟩
  | segments => .error (.segmentCount (String.ofList text) segments.length)

/-- Reads an identifier from a string. -/
def parse (text : String) : Except Error Identifier :=
  ofChars text.toList

end Identifier

end Markers
