import Markers.Proofs.Conversion.Variant

/-!
# Lists convert element by element

A list converts to the values of its elements in their order, or it fails with the first element
that fails. The elements have a type that a family holds, so what one of them fails with is the last
cause: neither the failure of a list inside nor the want of a converter.
-/

namespace Markers.Converters

variable {cs : Converters} {s : Schema} {t u : Destination} {m : Marker} {xs : List Literal}
  {e : ConversionError}

/-- At a type that a family holds, a marker has the wrong kind or the type has no value for it. -/
theorem convertTo_error_of_holds {f : Family} (hf : f.holds t.dereferenced = true)
    (h : cs.convertTo s m t = .error e) :
    e = Family.mismatch m.value t.dereferenced ∨ e.IsUnfit := by
  rw [convertTo_eq_convertAs (Family.supports_of_holds hf)] at h
  exact Family.convert_error hf h

/-- An element fails with the last cause. -/
theorem root_of_convertTo_element (hu : Family.list.supports (.sequence u) = true)
    (h : cs.convertTo s m u = .error e) :
    e.root = e ∧ e.variant ≠ .element ∧ e.variant ≠ .noConverter := by
  obtain ⟨f, hf⟩ := (Family.isElement_iff.mp hu).2
  exact Family.root_of_mismatch_or_unfit (convertTo_error_of_holds hf h)

theorem convertAs_list (hm : m.value = .list xs) :
    cs.convertAs s .list m (.sequence u) =
      (Family.ofElements (fun x => cs.convertTo s (m.withValue x) u) 0 xs).map .list := by
  rw [convertAs, hm]
  rfl

/-- A list fails with its first element that fails. -/
theorem failure_of_convertAs_list (hu : Family.list.supports (.sequence u) = true)
    (hm : m.value = .list xs) (h : cs.convertAs s .list m (.sequence u) = .error e) :
    ∃ index cause, FirstFailure (fun x => cs.convertTo s (m.withValue x) u) xs index cause ∧
      e = .element index cause ∧ cause.root = cause ∧
      cause.variant ≠ .element ∧ cause.variant ≠ .noConverter := by
  rw [convertAs_list hm, map_eq_error_iff, Family.ofElements_eq_error_iff] at h
  obtain ⟨index, cause, H, rfl⟩ := h
  obtain ⟨x, -, hx⟩ := Option.map_eq_some_iff.mp H.fails
  rw [Nat.zero_add]
  exact ⟨index, cause, H, rfl, root_of_convertTo_element hu hx⟩

/-- A list converts to the list of the values of its elements exactly if all of them convert. If
not, it fails with the index of the first that does not and with the error of that element alone,
which is the root of the failure. -/
theorem convertTo_elementwise (cs : Converters) (s : Schema) (m : Marker) (t u : Destination)
    (xs : List Literal) (ht : t.dereferenced = .sequence u)
    (hlist : Family.list.supports t.dereferenced = true) (hm : m.value = .list xs) :
    let element x := cs.convertTo s (m.withValue x) u
    (∀ vs, cs.convertTo s m t = .ok (.list vs) ↔
      List.Forall₂ (fun v x => element x = .ok v) vs xs) ∧
    ((¬∃ vs, List.Forall₂ (fun v x => element x = .ok v) vs xs) →
      ∃ index cause, FirstFailure element xs index cause ∧
        cs.convertTo s m t = .error (.element index cause) ∧
        cause.variant ≠ .element ∧ cause.variant ≠ .noConverter ∧
        (ConversionError.element index cause).root = cause) := by
  intro element
  have hconvert : cs.convertTo s m t = cs.convertAs s .list m (.sequence u) := by
    rw [convertTo_eq_convertAs hlist, ht]
  have hok : ∀ vs, cs.convertTo s m t = .ok (.list vs) ↔
      List.Forall₂ (fun v x => element x = .ok v) vs xs := by
    intro vs
    rw [hconvert, convertAs_list hm, map_eq_ok_iff, ← Family.ofElements_eq_ok_iff (i := 0)]
    constructor
    · rintro ⟨vs', hvs, ⟨⟩⟩
      exact hvs
    · intro hvs
      exact ⟨vs, hvs, rfl⟩
  refine ⟨hok, fun hnone => ?_⟩
  cases hresult : cs.convertTo s m t with
  | ok v =>
    obtain ⟨vs, -, rfl⟩ := map_eq_ok_iff.mp ((convertAs_list hm).symm.trans (hconvert ▸ hresult))
    exact absurd ⟨vs, (hok vs).mp hresult⟩ hnone
  | error e =>
    rw [ht] at hlist
    obtain ⟨index, cause, H, rfl, hroot, helement, hconverter⟩ :=
      failure_of_convertAs_list hlist hm (hconvert ▸ hresult)
    exact ⟨index, cause, H, rfl, helement, hconverter, hroot⟩

theorem convertTo_elementwise_overflow :
    let t := Destination.reference (.sequence (.reference (.unsigned 8)))
    let m : Marker := ⟨⟨"a", "b", "c"⟩, .list [.int 7, .int 300, .bool true], .start⟩
    let element x := empty.convertTo .empty (m.withValue x) (.reference (.unsigned 8))
    t.dereferenced = .sequence (.reference (.unsigned 8)) ∧
      Family.list.supports t.dereferenced = true ∧
      m.value = .list [.int 7, .int 300, .bool true] ∧
      FirstFailure element [.int 7, .int 300, .bool true] 1 (.overflow (.whole 300) (.unsigned 8)) ∧
      empty.convertTo .empty m t = .error (.element 1 (.overflow (.whole 300) (.unsigned 8))) := by
  intro t m element
  have hresult : empty.convertTo .empty m t =
      .error (.element 1 (.overflow (.whole 300) (.unsigned 8))) := rfl
  obtain ⟨hok, herror⟩ := convertTo_elementwise empty .empty m t _ _ rfl rfl rfl
  have hnone : ¬∃ vs, List.Forall₂ (fun v x => element x = .ok v) vs
      [.int 7, .int 300, .bool true] := by
    rintro ⟨vs, hvs⟩
    have h := (hok vs).mpr hvs
    rw [hresult] at h
    cases h
  obtain ⟨index, cause, H, h, -⟩ := herror hnone
  rw [hresult] at h
  cases h
  exact ⟨rfl, rfl, rfl, H, hresult⟩

end Markers.Converters
