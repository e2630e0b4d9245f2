import Markers.Destination
import Markers.Identifier
import Markers.Target
import Markers.Value

/-!
# Registries

An option is defined by its descriptor. A registry holds the descriptors of the options that are
defined, at most one for an identifier. A definition is never changed or taken back.
-/

namespace Markers

/-- Where a marker may stand, what its value becomes, and how it is documented. -/
structure Descriptor where
  identifier : String
  destination : Destination
  targets : Targets := .all
  /-- The option may occur once at most in a block. -/
  unique : Bool := false
  /-- What to use instead of a deprecated option. -/
  replacement : Option String := none
  default : Option Value := none
  doc : Option String := none

/-- May the marker stand on the target? -/
def Descriptor.accepts (d : Descriptor) (t : Target) : Bool :=
  d.targets.contains t

/-- The descriptors in the order of their identifiers, which are distinct. -/
structure Registry where
  descriptors : List Descriptor
  sorted : descriptors.Pairwise (·.identifier < ·.identifier)

namespace Registry

def empty : Registry := ⟨[], .nil⟩

/-- The descriptor of an identifier. -/
def find? (r : Registry) (identifier : String) : Option Descriptor :=
  r.descriptors.find? (·.identifier = identifier)

def contains (r : Registry) (identifier : String) : Bool := (r.find? identifier).isSome

def size (r : Registry) : Nat := r.descriptors.length

def isEmpty (r : Registry) : Bool := r.descriptors.isEmpty

/-- Why a definition is refused. -/
inductive Error where
  | duplicate (identifier : String)
  | invalid (cause : Identifier.Error)
  deriving DecidableEq, Repr

def Error.message : Error → String
  | duplicate i => s!"marker '{i}' is already defined"
  | invalid cause => s!"invalid marker identifier: {cause.message}"

/-- Puts a descriptor in front of the first with a greater identifier. -/
def insertSorted (d : Descriptor) : List Descriptor → List Descriptor
  | [] => [d]
  | e :: es => if d.identifier < e.identifier then d :: e :: es else e :: insertSorted d es

theorem insertSorted_perm (d : Descriptor) (es : List Descriptor) :
    (insertSorted d es).Perm (d :: es) := by
  induction es with
  | nil => exact .refl _
  | cons e es ih =>
    unfold insertSorted
    split
    · exact .refl _
    · exact (ih.cons e).trans (.swap d e es)

theorem mem_insertSorted {d e : Descriptor} {es : List Descriptor} :
    e ∈ insertSorted d es ↔ e = d ∨ e ∈ es := by
  rw [(insertSorted_perm d es).mem_iff, List.mem_cons]

theorem pairwise_insertSorted {d : Descriptor} {es : List Descriptor}
    (hes : es.Pairwise (·.identifier < ·.identifier)) (hd : ∀ e ∈ es, e.identifier ≠ d.identifier) :
    (insertSorted d es).Pairwise (·.identifier < ·.identifier) := by
  induction hes with
  | nil => simp [insertSorted]
  | @cons a es ha hes ih =>
    unfold insertSorted
    split
    · next hlt =>
      refine .cons (fun e he => ?_) (.cons ha hes)
      rcases List.mem_cons.mp he with rfl | he
      · exact hlt
      · exact String.lt_trans hlt (ha e he)
    · next hlt =>
      refine .cons (fun e he => ?_) (ih fun e he => hd e (List.mem_cons_of_mem _ he))
      rcases mem_insertSorted.mp he with rfl | he
      · exact Std.lt_of_le_of_ne (Std.not_lt.mp hlt) (hd a List.mem_cons_self)
      · exact ha e he

/-- Defines an option whose identifier is well formed and not yet taken. -/
def define (r : Registry) (d : Descriptor) : Except Error Registry :=
  match Identifier.parse d.identifier with
  | .error e => .error (.invalid e)
  | .ok _ =>
    match h : r.find? d.identifier with
    | some _ => .error (.duplicate d.identifier)
    | none =>
      .ok ⟨insertSorted d r.descriptors, pairwise_insertSorted r.sorted fun e he => by
        simpa using List.find?_eq_none.mp h e he⟩

end Registry

end Markers
