/-!
# Literals

The values that can be written in a marker.
-/

namespace Markers

/-- A value as it is written in a marker. -/
inductive Literal where
  | int (value : Int64)
  | float (value : Float)
  | complex (re im : Float)
  | bool (value : Bool)
  | string (value : String)
  /-- The elements need not be of one kind. -/
  | list (elements : List Literal)
  deriving Inhabited

namespace Literal

/-- The kinds of literals. -/
inductive Kind where
  | string | int | float | complex | bool | list
  deriving DecidableEq, Repr

instance : ToString Kind where
  toString
    | .string => "string"
    | .int => "int"
    | .float => "float"
    | .complex => "complex"
    | .bool => "bool"
    | .list => "list"

def kind : Literal → Kind
  | int _ => .int
  | float _ => .float
  | complex _ _ => .complex
  | bool _ => .bool
  | string _ => .string
  | list _ => .list

def int? : Literal → Option Int64
  | int v => some v
  | _ => none

def float? : Literal → Option Float
  | float x => some x
  | _ => none

def bool? : Literal → Option Bool
  | bool b => some b
  | _ => none

def string? : Literal → Option String
  | string s => some s
  | _ => none

def list? : Literal → Option (List Literal)
  | list xs => some xs
  | _ => none

end Literal

end Markers
