import Markers.Identifier
import Markers.Literal.Number
import Markers.Literal.Quoted

/-!
# Faults

The ways in which a text breaks the marker grammar.
-/

namespace Markers

/-- What breaks the grammar in a text, and the character or the part that does. -/
inductive Fault where
  | identifier (cause : Identifier.Error)
  | afterIdentifier (character : Char)
  | missingValue
  | valueStart (character : Char)
  | unterminatedString
  | quoted (cause : Quoted.Error)
  | unterminatedRaw
  | word (text : String)
  | number (cause : Number.Error)
  | blankBeforeElement
  | missingElement
  | nestedList
  | rawElement
  | commaSpace
  | blankAfterElement
  | unterminatedList
  | inList (character : Char)
  | afterValue (character : Char)
  deriving DecidableEq, Repr

def Fault.message : Fault → String
  | identifier e => e.message
  | afterIdentifier c =>
    s!"unexpected character '{c}' after marker identifier; expected '=' or end of line"
  | missingValue => "missing value"
  | valueStart c => s!"unexpected character '{c}' at start of value"
  | unterminatedString => "unterminated string literal"
  | quoted e => e.message
  | unterminatedRaw => "unterminated multi-line string"
  | word t => s!"invalid value '{t}'; expected true or false"
  | number e => e.message
  | blankBeforeElement => "unexpected whitespace before list element"
  | missingElement => "expected a list element, found ']'"
  | nestedList => "nested lists are not allowed"
  | rawElement => "multi-line strings are not allowed inside lists"
  | commaSpace => "',' in a list must be followed by a single space"
  | blankAfterElement => "unexpected whitespace after list element"
  | unterminatedList => "unterminated list"
  | inList c => s!"unexpected character '{c}' in list"
  | afterValue c => s!"unexpected character '{c}' after value; only a newline may follow"

end Markers
