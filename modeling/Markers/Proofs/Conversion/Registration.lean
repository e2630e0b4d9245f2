import Markers.Conversion.Converters
import Markers.Proofs.Conversion.Family

/-!
# Registered converters

An application registers converters one after the other. The first one for a type stays for good
and serves the type, unless a family supports it or the type is a reference. Nothing that a family
converts to depends on what is registered, for the elements of a list have types that families
support, too.
-/

namespace Markers

/-- The converter that gives the literal of a marker back. -/
def Converter.echo : Converter where
  name := "echo"
  check _ _ := .ok ()
  convert _ m _ := .ok (.literal m.value)

namespace Converters

/-! ### Registering -/

/-- The converters behind a call that registers one. A refused call leaves them as they are. -/
def afterCall (cs : Converters) (call : Destination × Converter) : Converters :=
  match cs.register call.1 call.2 with
  | .ok cs' => cs'
  | .error _ => cs

def afterCalls (cs : Converters) (calls : List (Destination × Converter)) : Converters :=
  calls.foldl afterCall cs

variable {cs cs' : Converters} {t u : Destination} {c : Converter}

theorem register_eq_ok (h : cs.register t c = .ok cs') :
    cs.find? t = none ∧ cs' = ⟨cs.entries ++ [(t, c)]⟩ := by
  unfold register at h
  split at h <;> cases h
  next hnone => exact ⟨by simpa using hnone, rfl⟩

theorem register_eq_error {e : Error} (h : cs.register t c = .error e) :
    (∃ c', cs.find? t = some c') ∧ e = .duplicate t := by
  unfold register at h
  split at h <;> cases h
  next hsome => exact ⟨Option.isSome_iff_exists.mp hsome, rfl⟩

theorem find?_register (h : cs.register t c = .ok cs') (u : Destination) :
    cs'.find? u = (cs.find? u).or ([(t, c)].lookup u) := by
  rw [(register_eq_ok h).2, find?, List.lookup_append, find?]

theorem find?_afterCall (cs : Converters) (call : Destination × Converter) (u : Destination) :
    (cs.afterCall call).find? u = (cs.find? u).or ([call].lookup u) := by
  unfold afterCall
  split
  · next h => exact find?_register h u
  · next h =>
    obtain ⟨⟨c', hc'⟩, -⟩ := register_eq_error h
    by_cases hu : u = call.1
    · rw [hu, hc', Option.some_or]
    · have hlookup : [call].lookup u = none := by simp [List.lookup_eq_none_iff, hu]
      rw [hlookup, Option.or_none]

/-- The first converter that is registered for a type stays. -/
theorem find?_afterCalls (cs : Converters) (calls : List (Destination × Converter))
    (u : Destination) : (cs.afterCalls calls).find? u = (cs.find? u).or (calls.lookup u) := by
  induction calls generalizing cs with
  | nil => exact Option.or_none.symm
  | cons call calls ih =>
    calc ((cs.afterCall call).afterCalls calls).find? u
      _ = ((cs.find? u).or ([call].lookup u)).or (calls.lookup u) := by rw [ih, find?_afterCall]
      _ = (cs.find? u).or ((call :: calls).lookup u) := by
        rw [Option.or_assoc, ← List.lookup_append, List.singleton_append]

theorem find?_empty_afterCalls (calls : List (Destination × Converter)) (u : Destination) :
    (empty.afterCalls calls).find? u = calls.lookup u := by
  rw [find?_afterCalls]
  rfl

theorem afterCall_of_error {e : Error} (h : cs.register t c = .error e) :
    cs.afterCall (t, c) = cs := by
  simp only [afterCall, h]

/-- What is registered for a type comes from a call for that type. -/
theorem mem_of_find? {calls : List (Destination × Converter)}
    (h : (empty.afterCalls calls).find? t = some c) : (t, c) ∈ calls := by
  rw [find?_empty_afterCalls] at h
  obtain ⟨front, rest, rfl, -⟩ := List.lookup_eq_some_iff.mp h
  simp

/-! ### Resolution -/

/-- Only what is registered for the type behind all references matters. -/
theorem resolve_congr (h : cs.find? t.dereferenced = cs'.find? t.dereferenced) :
    cs.resolve t = cs'.resolve t := by
  simp only [resolve, h]

theorem resolve_of_find? {f : Family} (hf : Family.find? t.dereferenced = some f) :
    cs.resolve t = .ok (.family f) := by
  simp only [resolve, hf]

theorem resolve_of_supports {f : Family} (hf : f.supports t = true) :
    cs.resolve t = .ok (.family f) := by
  apply resolve_of_find?
  rw [Family.dereferenced_of_supports hf]
  exact Family.find?_eq_some_iff.mpr hf

theorem resolve_of_registered (hf : Family.find? t.dereferenced = none)
    (hc : cs.find? t.dereferenced = some c) : cs.resolve t = .ok (.registered c) := by
  simp only [resolve, hf, hc]

theorem resolve_of_unsupported (hf : ∀ f : Family, f.supports t.dereferenced = false)
    (hc : cs.find? t.dereferenced = none) :
    cs.resolve t = .error (.noConverter t.dereferenced) := by
  simp only [resolve, Family.find?_eq_none_iff.mpr hf, hc]

/-- A registered converter serves its type and the references to it ever after. -/
theorem resolve_of_register (h : cs.register t c = .ok cs')
    (hnone : ∀ f : Family, f.supports t.dereferenced = false) (hu : u.dereferenced = t)
    (after : List (Destination × Converter)) :
    (cs'.afterCalls after).resolve u = .ok (.registered c) := by
  subst hu
  rw [Destination.dereferenced_dereferenced] at hnone
  refine resolve_of_registered (Family.find?_eq_none_iff.mpr hnone) ?_
  rw [find?_afterCalls, find?_register h, (register_eq_ok h).1]
  simp

/-- A converter that is registered for a reference serves nothing. -/
theorem resolve_of_register_reference (h : cs.register t c = .ok cs') (ht : t.dereferenced ≠ t)
    (after : List (Destination × Converter)) (u : Destination) :
    (cs'.afterCalls after).resolve u = (cs.afterCalls after).resolve u := by
  have hu : u.dereferenced ≠ t := by
    rintro rfl
    exact ht u.dereferenced_dereferenced
  have hlookup : [(t, c)].lookup u.dereferenced = none := by simp [List.lookup_eq_none_iff, hu]
  refine resolve_congr ?_
  rw [find?_afterCalls, find?_afterCalls, find?_register h, hlookup, Option.or_none]

/-- A converter that is accepted for a type serves the type and the references to it ever after,
unless a family does; if the type is itself a reference, nothing changes. A converter is refused
only for a type that has one already, and then nothing changes, either. -/
theorem register_served (before after : List (Destination × Converter)) (t : Destination)
    (c : Converter) :
    let cs := empty.afterCalls before
    (∀ cs', cs.register t c = .ok cs' → (∀ f : Family, f.supports t.dereferenced = false) →
      ∀ u, u.dereferenced = t → (cs'.afterCalls after).resolve u = .ok (.registered c)) ∧
    (∀ cs', cs.register t c = .ok cs' → t.dereferenced ≠ t →
      ∀ u, (cs'.afterCalls after).resolve u = (cs.afterCalls after).resolve u) ∧
    ∀ e, cs.register t c = .error e →
      e = .duplicate t ∧ (∃ c', (t, c') ∈ before ∧ cs.find? t = some c') ∧
        ∀ u, (cs.afterCall (t, c)).resolve u = cs.resolve u := by
  intro cs
  refine ⟨fun cs' h hnone u hu => resolve_of_register h hnone hu after,
    fun cs' h ht => resolve_of_register_reference h ht after, fun e h => ?_⟩
  obtain ⟨⟨c', hc'⟩, he⟩ := register_eq_error h
  exact ⟨he, ⟨c', mem_of_find? hc', hc'⟩, fun u => by rw [afterCall_of_error h]⟩

theorem register_served_named :
    let cs := empty.afterCalls [(.bool, .echo)]
    let cs' : Converters := ⟨cs.entries ++ [(.named "x", .echo)]⟩
    cs.register (.named "x") .echo = .ok cs' ∧
      (cs'.afterCalls [(.named "x", .echo)]).resolve (.reference (.named "x")) =
        .ok (.registered .echo) :=
  ⟨rfl, (register_served [(.bool, .echo)] [(.named "x", .echo)] (.named "x") .echo).1 _ rfl
    (fun f => by cases f <;> rfl) _ rfl⟩

/-- A converter for a reference is accepted, but the type behind the reference resolves without
it. -/
theorem resolve_registered_reference :
    ∃ cs, empty.register (.reference (.named "x")) .echo = .ok cs ∧
      (∀ f : Family, f.supports (Destination.reference (.named "x")).dereferenced = false) ∧
      cs.resolve (.reference (.named "x")) = .error (.noConverter (.named "x")) :=
  ⟨_, rfl, fun f => by cases f <;> rfl, rfl⟩

/-! ### Conversion -/

/-- What a family serves is what it converts to, for its check refuses nothing more. -/
theorem serve_eq_convert {f : Family} (hf : cs.resolve t = .ok (.family f)) (s : Schema)
    (element : Marker → Except ConversionError Value) (m : Marker) :
    cs.serve s element m t = f.convert (fun x => element (m.withValue x)) m.value t := by
  simp only [serve, hf]
  split
  · next hcheck => rw [Family.convert_of_check_error hcheck]
  · rfl

/-- A type that a family holds has no elements whose conversion could matter. -/
theorem convertTo_of_holds {f : Family} (ht : f.holds t = true) (s : Schema)
    (e : Literal → Except ConversionError Value) (m : Marker) :
    cs.convertTo s m t = f.convert e m.value t := by
  have hresolve : cs.resolve t = .ok (.family f) :=
    resolve_of_supports (Family.supports_of_holds ht)
  cases t with
  | reference => cases f <;> cases ht
  | _ =>
    rw [convertTo, serve_eq_convert hresolve]
    · exact Family.convert_of_ne_list (Family.ne_list_of_holds ht) _ _ _ _
    all_goals exact nofun

theorem convertTo_list (ht : Family.list.supports (.sequence t) = true) (s : Schema)
    (m : Marker) : cs.convertTo s m (.sequence t) =
      Family.list.convert (fun x => cs.convertTo s (m.withValue x) t) m.value (.sequence t) := by
  rw [convertTo, serve_eq_convert (resolve_of_supports ht)]

/-- What a family converts to depends on no registered converter, and on nothing that one could
ask for. -/
theorem convertTo_of_served (ht : t.Served) (s s' : Schema) (m : Marker) :
    cs.convertTo s m t = cs'.convertTo s' m t := by
  induction ht generalizing m with
  | reference _ ih => exact ih m
  | single h =>
    let e : Literal → Except ConversionError Value := fun _ => .error (.noConverter .any)
    rw [convertTo_of_holds h s e, convertTo_of_holds h s' e]
  | list h _ ih =>
    rw [convertTo_list h, convertTo_list h]
    simp only [ih]

theorem convertTo_congr (ht : ∃ f : Family, f.supports t.dereferenced = true) (s s' : Schema)
    (m : Marker) : cs.convertTo s m t = cs'.convertTo s' m t :=
  convertTo_of_served (Family.served_of_supports ht) s s' m

/-- A type that a family supports resolves and converts as it does without registered converters,
whatever is registered and whatever there is to ask for, and so does the type of the elements where
the family is that of lists. -/
theorem convertTo_afterCalls (calls : List (Destination × Converter)) (t : Destination)
    (ht : ∃ f : Family, f.supports t.dereferenced = true) :
    let cs := empty.afterCalls calls
    (∃ f : Family, cs.resolve t = .ok (.family f) ∧ empty.resolve t = .ok (.family f)) ∧
    (∀ s s' m, cs.convertTo s m t = empty.convertTo s' m t) ∧
    ∀ u, t.dereferenced = .sequence u → Family.find? t.dereferenced = some .list →
      ∀ s s' m, cs.convertTo s m u = empty.convertTo s' m u := by
  intro cs
  obtain ⟨f, hf⟩ := Family.exists_find?_iff.mpr ht
  refine ⟨⟨f, resolve_of_find? hf, resolve_of_find? hf⟩, convertTo_congr ht, fun u hu hlist => ?_⟩
  rw [hu] at hlist
  exact convertTo_congr (Family.exists_supports_element (Family.supports_of_find? hlist))

theorem convertTo_afterCalls_list :
    let t := Destination.reference (.sequence (.unsigned 8))
    let calls := [(t, Converter.echo), (.sequence (.unsigned 8), .echo), (.unsigned 8, .echo)]
    (∃ f : Family, f.supports t.dereferenced = true) ∧
      ∀ s s' m, (empty.afterCalls calls).convertTo s m t = empty.convertTo s' m t :=
  ⟨⟨.list, rfl⟩, (convertTo_afterCalls _ _ ⟨.list, rfl⟩).2.1⟩

end Converters

end Markers
