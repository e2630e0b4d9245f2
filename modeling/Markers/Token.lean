import Markers.Text

/-!
# Tokens

The tokens of the markers in a text. Prose has no tokens.
-/

namespace Markers

namespace Token

/-- The kinds of tokens. -/
inductive Kind where
  | finish
  /-- The text breaks the grammar; the token's text says how. -/
  | fault
  | string | bool | identifier | assign | plus | listOpen | listClose
  | int | float | complex | comma
  deriving DecidableEq, Repr

instance : ToString Kind where
  toString
    | .finish => "end of input"
    | .fault => "error"
    | .string => "string"
    | .bool => "bool"
    | .identifier => "identifier"
    | .assign => "'='"
    | .plus => "'+'"
    | .listOpen => "'['"
    | .listClose => "']'"
    | .int => "integer"
    | .float => "float"
    | .complex => "complex"
    | .comma => "','"

/-- Nothing follows a terminal token. -/
def Kind.isTerminal (k : Kind) : Bool :=
  k = .finish || k = .fault

end Token

/-- A piece of text with its kind, and the place where it starts. -/
structure Token where
  kind : Token.Kind
  text : String
  position : Position
  deriving DecidableEq, Repr

namespace Token

def isTerminal (t : Token) : Bool := t.kind.isTerminal

/-- The token that closes a text without faults. -/
def finish (p : Position) : Token := ⟨.finish, "", p⟩

end Token

/-- Cuts a token off a cursor: `part` is its text and `rest` what follows. -/
def Cursor.token (c : Cursor) (kind : Token.Kind) (part rest : List Char) : Token × Cursor :=
  (⟨kind, String.ofList part, c.position⟩, c.behind part rest)

end Markers
