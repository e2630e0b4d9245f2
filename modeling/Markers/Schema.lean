import Markers.Options

/-!
# Schemas

A schema is what an application knows about its markers: the options that are defined, what serves
each type, and what values convert to. It turns the markers of a block into options.
-/

namespace Markers

/-- A conversion of a marker's value to a type. -/
abbrev Conversion := Marker → Destination → Except ConversionError Value

/-- What serves a type: a check, and the conversion behind it. -/
structure Service where
  name : String
  check : Marker → Destination → Except ConversionError Unit
  convert : Conversion

/-- The options that are defined, what serves a type, and what a value converts to. -/
structure Schema where
  registry : Registry
  resolve : Destination → Except ConversionError Service
  convertTo : Conversion

namespace Schema

/-- Nothing is defined, and nothing converts. -/
def empty : Schema where
  registry := .empty
  resolve t := .error (.noConverter t.dereferenced)
  convertTo _ t := .error (.noConverter t.dereferenced)

/-- The descriptor of a defined option. -/
def lookup (s : Schema) (identifier : String) : Except BlockError Descriptor :=
  match s.registry.find? identifier with
  | some d => .ok d
  | none => .error (.notDefined identifier)

/-- Converts a marker on a target as a descriptor says. -/
def convertWith (s : Schema) (d : Descriptor) (m : Marker) (t : Target) :
    Except BlockError Value :=
  if d.accepts t then (s.convertTo m d.destination).mapError (.conversion d.identifier)
  else .error (.targetNotApplicable d.identifier t)

/-- Converts a marker on a target as its option is defined. -/
def convert (s : Schema) (m : Marker) (t : Target) : Except BlockError Value := do
  s.convertWith (← s.lookup (toString m.identifier)) m t

/-- Adds a marker's value to the options of its block. -/
def addMarker (s : Schema) (t : Target) (o : Options) (m : Marker) : Except BlockError Options := do
  let d ← s.lookup (toString m.identifier)
  let v ← s.convertWith d m t
  (o.noteUse d m.position).insert d v

/-- The options of a block of text on a target. The first failure fails the block. -/
def convertBlock (s : Schema) (text : String) (t : Target) : Except BlockError Options :=
  match Marker.parse text with
  | .error e => .error (.parse e)
  | .ok ms => ms.foldlM (s.addMarker t) .empty

end Schema

end Markers
