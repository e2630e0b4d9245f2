import Markers.Conversion.Family
import Markers.Schema

/-!
# Conversion to a type

A type is served by the family that supports it, else by the converter that the application has
registered for exactly that type. References are looked through first. A registered converter is
handed a schema, and may ask it back for all that it knows: conversions as well as definitions.
-/

namespace Markers

/-- A converter of the application. -/
structure Converter where
  name : String
  check : Marker → Destination → Except ConversionError Unit
  convert : Schema → Conversion

/-- The registered converters, oldest first, each with its type. -/
structure Converters where
  entries : List (Destination × Converter)

/-- What serves a type. -/
inductive Server where
  | family (f : Family)
  | registered (c : Converter)

def Server.name : Server → String
  | family f => f.name
  | registered c => c.name

namespace Converters

def empty : Converters := ⟨[]⟩

/-- The converter registered for a type. -/
def find? (cs : Converters) (t : Destination) : Option Converter :=
  cs.entries.lookup t

/-- A second converter for a type is refused. -/
inductive Error where
  | duplicate (destination : Destination)
  deriving DecidableEq, Repr

def Error.message : Error → String
  | duplicate t => s!"a converter for type {t} is already registered"

/-- Registers a converter for one type. -/
def register (cs : Converters) (t : Destination) (c : Converter) : Except Error Converters :=
  if (cs.find? t).isSome then .error (.duplicate t) else .ok ⟨cs.entries ++ [(t, c)]⟩

/-- What serves a type. Families come first, so no registration changes what they do. -/
def resolve (cs : Converters) (t : Destination) : Except ConversionError Server :=
  let t := t.dereferenced
  match Family.find? t, cs.find? t with
  | some f, _ => .ok (.family f)
  | none, some c => .ok (.registered c)
  | none, none => .error (.noConverter t)

/-! ### Conversion -/

/-- Converts to a type that is no reference. Elements of a sequence go through `element`, and a
registered converter is handed `s`. -/
def serve (cs : Converters) (s : Schema) (element : Marker → Except ConversionError Value)
    (m : Marker) (t : Destination) : Except ConversionError Value :=
  match cs.resolve t with
  | .error e => .error e
  | .ok (.family f) =>
    match f.check m.value t with
    | .error e => .error e
    | .ok () => f.convert (fun x => element (m.withValue x)) m.value t
  | .ok (.registered c) =>
    match c.check m t with
    | .error e => .error e
    | .ok () => c.convert s m t

/-- Converts a marker's value to a type, by recursion on the type. -/
def convertTo (cs : Converters) (s : Schema) : Marker → Destination → Except ConversionError Value
  | m, .reference t => cs.convertTo s m t
  | m, .sequence t => cs.serve s (fun m => cs.convertTo s m t) m (.sequence t)
  | m, t => cs.serve s (fun _ => .error (.noConverter t)) m t

/-- Converts by the rules of one family, whether or not it supports the type. -/
def convertAs (cs : Converters) (s : Schema) (f : Family) : Conversion := fun m t =>
  f.convert (fun x => cs.convertTo s (m.withValue x) (t.element?.getD t)) m.value t

/-! ### Asking back -/

def service (cs : Converters) (s : Schema) : Server → Service
  | .family f => ⟨f.name, fun m t => f.check m.value t, cs.convertAs s f⟩
  | .registered c => ⟨c.name, c.check, c.convert s⟩

/-- The schema of the converters where they are handed the one below, with the same definitions. -/
def above (cs : Converters) (s : Schema) : Schema where
  registry := s.registry
  resolve t := (cs.resolve t).map (cs.service s)
  convertTo := cs.convertTo s

/-- The schema of the converters where each is handed one of the next lower depth. What is asked
for beyond the depth is asked of `s`. -/
def schema (cs : Converters) (s : Schema) : Nat → Schema
  | 0 => s
  | depth + 1 => cs.above (cs.schema s depth)

end Converters

end Markers
