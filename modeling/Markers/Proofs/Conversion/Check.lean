import Markers.Proofs.Conversion.Lists

/-!
# Checks before conversions

The check of a family foresees the conversion. What it refuses the conversion refuses with the same
error, and behind a passed check a literal is never of the wrong kind. So the checks could be left
out at every depth (`convertUnchecked`) without a change of what a family converts to.
-/

namespace Markers.Converters

/-- Serves a type without a check. -/
def serveUnchecked (cs : Converters) (s : Schema)
    (element : Marker → Except ConversionError Value) (m : Marker) (t : Destination) :
    Except ConversionError Value :=
  match cs.resolve t with
  | .error e => .error e
  | .ok (.family f) => f.convert (fun x => element (m.withValue x)) m.value t
  | .ok (.registered c) => c.convert s m t

/-- Converts to a type without checks, neither for the marker nor for the elements of its list. -/
def convertUnchecked (cs : Converters) (s : Schema) :
    Marker → Destination → Except ConversionError Value
  | m, .reference t => cs.convertUnchecked s m t
  | m, .sequence t => cs.serveUnchecked s (fun m => cs.convertUnchecked s m t) m (.sequence t)
  | m, t => cs.serveUnchecked s (fun _ => .error (.noConverter t)) m t

variable {cs : Converters} {s : Schema} {f : Family} {t : Destination} {m : Marker}
  {e : ConversionError}

/-! ### Conversions without checks -/

theorem serveUnchecked_eq_serve (hf : cs.resolve t = .ok (.family f)) (s s' : Schema)
    (element : Marker → Except ConversionError Value) (m : Marker) :
    cs.serveUnchecked s element m t = cs.serve s' element m t := by
  rw [serve_eq_convert hf]
  simp only [serveUnchecked, hf]

theorem convertUnchecked_of_holds (ht : f.holds t = true) (s s' : Schema) (m : Marker) :
    cs.convertUnchecked s m t = cs.convertTo s' m t := by
  have hresolve : cs.resolve t = .ok (.family f) :=
    resolve_of_supports (Family.supports_of_holds ht)
  cases t with
  | reference => cases f <;> cases ht
  | sequence u =>
    rw [convertUnchecked, serveUnchecked_eq_serve hresolve s s', serve_eq_convert hresolve]
    exact (convertTo_of_holds ht s' _ m).symm
  | _ => exact serveUnchecked_eq_serve hresolve s s' _ m

/-- What a family serves is converted alike without any check. -/
theorem convertUnchecked_of_served (ht : t.Served) (s s' : Schema) (m : Marker) :
    cs.convertUnchecked s m t = cs.convertTo s' m t := by
  induction ht generalizing m with
  | reference _ ih => exact ih m
  | single h => exact convertUnchecked_of_holds h s s' m
  | list h _ ih =>
    rw [convertUnchecked, convertTo, funext ih]
    exact serveUnchecked_eq_serve (resolve_of_supports h) s s' _ m

/-! ### Checks -/

/-- The families that serve a type are those that support it behind all references. -/
theorem supports_of_resolve (h : cs.resolve t = .ok (.family f)) :
    f.supports t.dereferenced = true := by
  simp only [resolve] at h
  split at h <;> cases h
  next hf => exact Family.supports_of_find? hf

/-- Neither a type that the family supports nor the type of its elements lacks a converter. -/
theorem root_of_convertAs (hf : f.supports t = true) (h : cs.convertAs s f m t = .error e) :
    e.root.variant ≠ .noConverter := by
  rcases Family.holds_of_supports hf with hholds | ⟨rfl, u, rfl, -⟩
  · obtain ⟨hroot, -, hconverter⟩ :=
      Family.root_of_mismatch_or_unfit (Family.convert_error hholds h)
    rwa [hroot]
  · cases hm : m.value with
    | list xs =>
      obtain ⟨index, cause, -, rfl, hroot, -, hconverter⟩ := failure_of_convertAs_list hf hm h
      rwa [ConversionError.root, hroot]
    | _ =>
      rw [convertAs, hm] at h
      cases h
      exact (Family.root_of_mismatch_or_unfit (.inl rfl)).2.2

/-- A literal that passes the check is not of the wrong kind. -/
theorem variant_of_convertAs (hf : f.supports t = true) (hcheck : f.check m.value t = .ok ())
    (h : cs.convertAs s f m t = .error e) : e.variant ≠ .kindMismatch := by
  rcases Family.holds_of_supports hf with hholds | ⟨rfl, u, rfl, -⟩
  · exact (Family.isUnfit_of_convert hholds hcheck h).variant_ne
  · cases hm : m.value with
    | list xs =>
      obtain ⟨index, cause, -, rfl, -⟩ := failure_of_convertAs_list hf hm h
      simp [ConversionError.variant]
    | _ =>
      rw [hm] at hcheck
      cases hcheck

/-- What a family's check refuses, its conversion refuses with the same error, at any type. At a
type that the family supports, a literal that passes the check is not of the wrong kind, and neither
the type nor that of the elements lacks a converter. So where a family serves a type, markers
convert alike without any check, and no converter is ever missing. -/
theorem convertAs_agrees_with_check (cs : Converters) (s : Schema) (f : Family) (m : Marker)
    (t : Destination) :
    (∀ e, f.check m.value t = .error e → cs.convertAs s f m t = .error e) ∧
    (f.supports t = true → f.check m.value t = .ok () → ∀ e, cs.convertAs s f m t = .error e →
      e.variant ≠ .kindMismatch ∧ e.variant ≠ .noConverter ∧ e.root.variant ≠ .noConverter) ∧
    (cs.resolve t = .ok (.family f) →
      (∀ s', cs.convertUnchecked s' m t = cs.convertTo s m t) ∧
      ∀ e, cs.convertTo s m t = .error e → e.variant ≠ .noConverter ∧
        e.root.variant ≠ .noConverter) := by
  refine ⟨fun e h => Family.convert_of_check_error h _, fun hf hcheck e h => ?_,
    fun hresolve => ⟨fun s' => ?_, fun e h => ?_⟩⟩
  · exact ⟨variant_of_convertAs hf hcheck h, Family.variant_of_convert hf h,
      root_of_convertAs hf h⟩
  · have hserved := Family.served_of_supports ⟨f, supports_of_resolve hresolve⟩
    exact convertUnchecked_of_served hserved s' s m
  · have hf := supports_of_resolve hresolve
    rw [convertTo_eq_convertAs hf] at h
    exact ⟨Family.variant_of_convert hf h, root_of_convertAs hf h⟩

theorem convertAs_agrees_with_check_list :
    let t := Destination.sequence (.unsigned 8)
    let m : Marker := ⟨⟨"a", "b", "c"⟩, .list [.int 7, .int 300], .start⟩
    let e := ConversionError.element 1 (.overflow (.whole 300) (.unsigned 8))
    (Family.bool.check m.value t = .error (.kindMismatch t .list) ∧
      empty.convertAs .empty .bool m t = .error (.kindMismatch t .list)) ∧
    (Family.list.supports t = true ∧ Family.list.check m.value t = .ok () ∧
      empty.convertAs .empty .list m t = .error e ∧ e.root.variant ≠ .noConverter) ∧
    empty.resolve t = .ok (.family .list) ∧
      ∀ s, empty.convertUnchecked s m t = empty.convertTo .empty m t := by
  intro t m e
  obtain ⟨hrefused, -⟩ := convertAs_agrees_with_check empty .empty .bool m t
  obtain ⟨-, hpassed, hserved⟩ := convertAs_agrees_with_check empty .empty .list m t
  exact ⟨⟨rfl, hrefused _ rfl⟩, ⟨rfl, rfl, rfl, (hpassed rfl rfl e rfl).2.2⟩, rfl, (hserved rfl).1⟩

end Markers.Converters
