/-!
# Targets

The declarations that a marker may stand on.
-/

namespace Markers

/-- A kind of declaration. -/
inductive Target where
  | package | struct | interface | field | function | structMethod | interfaceMethod | constant
  | var
  deriving DecidableEq, Repr

namespace Target

/-- All targets, in the order of their bits. -/
def all : List Target :=
  [package, struct, interface, field, function, structMethod, interfaceMethod, constant, var]

instance : ToString Target where
  toString
    | package => "package"
    | struct => "struct type"
    | interface => "interface type"
    | field => "field"
    | function => "function"
    | structMethod => "struct method"
    | interfaceMethod => "interface method"
    | constant => "constant"
    | var => "variable"

/-- The number of the target's bit in a set. -/
def index (t : Target) : Nat := t.ctorIdx

end Target

/-- A set of targets, one bit each. -/
structure Targets where
  bits : BitVec 9
  deriving DecidableEq, Repr

namespace Targets

def contains (s : Targets) (t : Target) : Bool := s.bits.getLsbD t.index

def ofTarget (t : Target) : Targets := ⟨1#9 <<< t.index⟩

def empty : Targets := ⟨0⟩

def union (s t : Targets) : Targets := ⟨s.bits ||| t.bits⟩

def ofList (ts : List Target) : Targets := ts.foldl (fun s t => s.union (ofTarget t)) empty

/-- The two kinds of types. -/
def types : Targets := ofList [.struct, .interface]

/-- The two kinds of methods. -/
def methods : Targets := ofList [.structMethod, .interfaceMethod]

def all : Targets := ofList Target.all

end Targets

end Markers
