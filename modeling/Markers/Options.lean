import Markers.Conversion.Error
import Markers.Marker
import Markers.Registry

/-!
# Options

A block of text gives options, which are its converted values grouped by identifier, or it fails as
a whole.
-/

namespace Markers

/-- Why a block of text, or one of its markers, gives no options. -/
inductive BlockError where
  | parse (cause : ParseError)
  | notDefined (identifier : String)
  | targetNotApplicable (identifier : String) (target : Target)
  | conversion (identifier : String) (cause : ConversionError)
  | repeated (identifier : String)

def BlockError.message : BlockError → String
  | parse e => e.message
  | notDefined i => s!"marker '{i}' is not defined"
  | targetNotApplicable i t => s!"marker '{i}' cannot be used on a {t}"
  | conversion i e => s!"marker '{i}': {e.message}"
  | repeated i => s!"marker '{i}' may occur only once"

/-- The values of one identifier in the order of their occurrence. There is at least one. -/
structure OptionEntry where
  identifier : String
  first : Value
  later : List Value

namespace OptionEntry

def values (e : OptionEntry) : List Value := e.first :: e.later

/-- Adds a later value. -/
def push (e : OptionEntry) (v : Value) : OptionEntry := { e with later := e.later ++ [v] }

end OptionEntry

/-- A deprecated option that was used. -/
structure Deprecation where
  identifier : String
  replacement : String
  position : Position
  deriving DecidableEq, Repr

/-- The index of an entry list holds the place of every entry under its identifier, and nothing
else. So no two entries have one identifier. -/
def Aligned (entries : List OptionEntry) (index : List (String × Nat)) : Prop :=
  ∀ identifier i, index.lookup identifier = some i ↔
    entries[i]?.map (·.identifier) = some identifier

namespace Aligned

theorem nil : Aligned [] [] := fun _ _ => by simp

theorem modify {entries : List OptionEntry} {index : List (String × Nat)}
    (h : Aligned entries index) (v : Value) (i : Nat) :
    Aligned (entries.modify i (·.push v)) index := by
  intro identifier j
  rw [h identifier j, List.getElem?_modify]
  split <;> cases entries[j]? <;> rfl

theorem append {entries : List OptionEntry} {index : List (String × Nat)}
    (h : Aligned entries index) {e : OptionEntry} (hnew : index.lookup e.identifier = none) :
    Aligned (entries ++ [e]) ((e.identifier, entries.length) :: index) := by
  intro identifier i
  have hplace : (entries ++ [e])[i]?.map (·.identifier) = some identifier ↔
      entries[i]?.map (·.identifier) = some identifier ∨
        i = entries.length ∧ e.identifier = identifier := by
    rcases Nat.lt_trichotomy i entries.length with hlt | rfl | hgt
    · rw [List.getElem?_append_left hlt]
      simp [Nat.ne_of_lt hlt]
    · simp
    · have hne : i ≠ entries.length := Nat.ne_of_gt hgt
      rw [List.getElem?_eq_none (by rw [List.length_append, List.length_singleton]; omega),
        List.getElem?_eq_none (by omega)]
      simp [hne]
  rw [hplace, ← h identifier i, List.lookup_cons]
  by_cases hid : identifier = e.identifier
  · subst hid
    simp [hnew, eq_comm]
  · have hbeq : (identifier == e.identifier) = false := beq_false_of_ne hid
    simp [hbeq, Ne.symm hid]

end Aligned

/-- Entries stand in the order in which their identifiers first occur, with an index of their
places; deprecations stand in the order of their markers. -/
structure Options where
  entries : List OptionEntry
  index : List (String × Nat)
  aligned : Aligned entries index
  deprecations : List Deprecation

namespace Options

def empty : Options := ⟨[], [], .nil, []⟩

/-- The entry of an identifier. -/
def find? (o : Options) (identifier : String) : Option OptionEntry :=
  (o.index.lookup identifier).bind (o.entries[·]?)

def contains (o : Options) (identifier : String) : Bool := (o.index.lookup identifier).isSome

def values? (o : Options) (identifier : String) : Option (List Value) :=
  (o.find? identifier).map (·.values)

def first? (o : Options) (identifier : String) : Option Value :=
  (o.find? identifier).map (·.first)

/-- The first value of a descriptor's identifier, else the descriptor's default. -/
def firstOrDefault? (o : Options) (d : Descriptor) : Option Value :=
  (o.first? d.identifier).or d.default

/-- The number of identifiers. -/
def size (o : Options) : Nat := o.entries.length

def isEmpty (o : Options) : Bool := o.entries.isEmpty

/-- Adds a value for a descriptor: at the end of its identifier's entry, or as a new last entry. A
unique descriptor takes no second value. -/
def insert (o : Options) (d : Descriptor) (v : Value) : Except BlockError Options :=
  match h : o.index.lookup d.identifier with
  | some i =>
    if d.unique then .error (.repeated d.identifier)
    else .ok { o with entries := o.entries.modify i (·.push v), aligned := o.aligned.modify v i }
  | none =>
    .ok { o with
      entries := o.entries ++ [⟨d.identifier, v, []⟩]
      index := (d.identifier, o.entries.length) :: o.index
      aligned := o.aligned.append h }

/-- Notes the use of a descriptor, if it is deprecated. -/
def noteUse (o : Options) (d : Descriptor) (p : Position) : Options :=
  match d.replacement with
  | none => o
  | some r => { o with deprecations := o.deprecations ++ [⟨d.identifier, r, p⟩] }

end Options

end Markers
