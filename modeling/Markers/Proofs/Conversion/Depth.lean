import Markers.Proofs.Conversion.Registration

/-!
# Converters that ask back

A converter is handed the schema of the next lower depth. What a schema answers whatever lies beyond
its depth it answers at every greater depth as well (`schema_settled`), so the depth matters only to
conversions that ask back deeper.

A pure converter asks for conversions, and what options are defined makes no difference to it. Where
all converters are pure, it makes no difference to what is converted at any depth
(`schema_withRegistry`).
-/

namespace Markers

namespace Converter

/-- Converters are to be pure: a converter is handed the schema for further conversions, and what
options are defined makes no difference to it. -/
def IsPure (c : Converter) : Prop :=
  ∀ (s : Schema) (r : Registry), c.convert { s with registry := r } = c.convert s

/-- The converter that gives a list of one value, which it asks for. -/
def singleton (u : Destination) : Converter where
  name := "singleton"
  check _ _ := .ok ()
  convert s m _ := (s.convertTo m u).map fun v => .list [v]

theorem isPure_singleton (u : Destination) : (singleton u).IsPure := fun _ _ => rfl

end Converter

namespace Converters

variable {cs : Converters} {s : Schema} {r : Registry} {t : Destination} {n : Nat}

/-! ### Depths -/

@[simp] theorem schema_registry (cs : Converters) (s : Schema) (n : Nat) :
    (cs.schema s n).registry = s.registry := by
  induction n with
  | zero => rfl
  | succ n ih => exact ih

theorem schema_add (cs : Converters) (s : Schema) (n k : Nat) :
    cs.schema s (n + k) = cs.schema (cs.schema s k) n := by
  induction n with
  | zero => rw [Nat.zero_add, schema]
  | succ n ih => rw [Nat.add_right_comm, schema, schema, ih]

/-- An answer that does not depend on what lies beyond the depth is that of every greater depth. -/
theorem schema_settled {answer : Schema → α} {a : α}
    (h : ∀ s, s.registry = r → answer (cs.schema s n) = a) (hs : s.registry = r) (k : Nat) :
    answer (cs.schema s (n + k)) = a := by
  rw [schema_add]
  refine h _ ?_
  rw [schema_registry, hs]

/-! ### Pure converters -/

/-- All registered converters are pure. -/
def IsPure (cs : Converters) : Prop :=
  ∀ t c, cs.find? t = some c → c.IsPure

theorem isPure_afterCalls {calls : List (Destination × Converter)}
    (h : ∀ call ∈ calls, call.2.IsPure) : (empty.afterCalls calls).IsPure :=
  fun _ _ hc => h _ (mem_of_find? hc)

theorem IsPure.of_resolve {c : Converter} (hpure : cs.IsPure)
    (h : cs.resolve t = .ok (.registered c)) : c.IsPure := by
  simp only [resolve] at h
  split at h <;> cases h
  next hc => exact hpure _ _ hc

theorem serve_withRegistry (hpure : cs.IsPure) (s : Schema) (r : Registry)
    (element : Marker → Except ConversionError Value) (m : Marker) (t : Destination) :
    cs.serve { s with registry := r } element m t = cs.serve s element m t := by
  match h : cs.resolve t with
  | .error e => simp only [serve, h]
  | .ok (.family f) => simp only [serve, h]
  | .ok (.registered c) => simp only [serve, h, hpure.of_resolve h s r]

theorem convertTo_withRegistry (hpure : cs.IsPure) (s : Schema) (r : Registry) :
    cs.convertTo { s with registry := r } = cs.convertTo s := by
  funext m t
  induction t generalizing m with
  | reference t ih => exact ih m
  | sequence t ih =>
    rw [convertTo, convertTo, funext ih]
    exact serve_withRegistry hpure s r _ m _
  | _ => exact serve_withRegistry hpure s r _ m _

theorem service_withRegistry (hpure : cs.IsPure) (s : Schema) (r : Registry) {server : Server}
    (h : cs.resolve t = .ok server) :
    cs.service { s with registry := r } server = cs.service s server := by
  cases server with
  | family f =>
    have hconvert : cs.convertAs { s with registry := r } f = cs.convertAs s f := by
      funext m t
      simp only [convertAs, convertTo_withRegistry hpure]
    simp only [service, hconvert]
  | registered c => simp only [service, hpure.of_resolve h s r]

/-- Pure converters leave the definitions of a schema alone. -/
theorem above_withRegistry (hpure : cs.IsPure) (s : Schema) (r : Registry) :
    cs.above { s with registry := r } = { cs.above s with registry := r } := by
  have hresolve : (fun t => (cs.resolve t).map (cs.service { s with registry := r })) =
      fun t => (cs.resolve t).map (cs.service s) := by
    funext t
    cases h : cs.resolve t with
    | error e => rfl
    | ok server => exact congrArg Except.ok (service_withRegistry hpure s r h)
  simp only [above, hresolve, convertTo_withRegistry hpure]

/-- What options are defined makes no difference to what pure converters convert to. -/
theorem schema_withRegistry (hpure : cs.IsPure) (s : Schema) (r : Registry) (n : Nat) :
    cs.schema { s with registry := r } n = { cs.schema s n with registry := r } := by
  induction n with
  | zero => rfl
  | succ n ih => rw [schema, ih, above_withRegistry hpure, schema]

end Converters

end Markers
