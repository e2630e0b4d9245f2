import Markers.Proofs.Conversion.Variant

/-!
# References inside types

A type converts like the type it refers to, also where references stand around the elements of a
list. What a family holds has no references in it, so a family that serves a type serves it without
its references as well, and converts to it alike.

There is one exception (`Destination.HidesCharacters`). A sequence of characters is a text only
where nothing stands between the sequence and its characters: behind a reference no family serves
them, neither alone nor as the elements of a list.
-/

namespace Markers

open ConversionError (Agree)

/-! ### Types without references -/

namespace Destination

/-- The type without the references in it, at whatever depth. -/
def withoutReferences : Destination → Destination
  | sequence t => sequence t.withoutReferences
  | reference t => t.withoutReferences
  | t => t

/-- The type is a sequence of references to characters. -/
def IsVeiledText (t : Destination) : Prop :=
  ∃ u, t = sequence (reference u) ∧ u.dereferenced.isCharacter = true

/-- The type is a sequence of references to characters, or a list of such sequences. -/
def HidesCharacters (t : Destination) : Prop :=
  t.dereferenced.IsVeiledText ∨
    ∃ u, t.dereferenced = sequence u ∧ u.dereferenced.IsVeiledText

variable {t u : Destination}

theorem withoutReferences_dereferenced (t : Destination) :
    t.dereferenced.withoutReferences = t.withoutReferences := by
  induction t with
  | reference t ih => exact ih
  | _ => rfl

theorem dereferenced_withoutReferences (t : Destination) :
    t.withoutReferences.dereferenced = t.withoutReferences := by
  induction t with
  | reference t ih => exact ih
  | _ => rfl

/-- Only the references around a character are left out of it. -/
theorem isCharacter_withoutReferences (t : Destination) :
    t.withoutReferences.isCharacter = t.dereferenced.isCharacter := by
  induction t with
  | reference t ih => exact ih
  | _ => rfl

end Destination

namespace Family

variable {f : Family} {t u : Destination}

theorem withoutReferences_of_holds (h : f.holds t = true) : t.withoutReferences = t := by
  cases t with
  | reference => cases f <;> cases h
  | sequence u =>
    cases u <;> first | rfl | (cases f <;> cases h)
  | _ => rfl

/-- What a family holds without its references has none, unless it is a veiled text. -/
theorem withoutReferences_of_holds_withoutReferences (ht : ∀ u, t ≠ .reference u)
    (hveiled : ¬t.IsVeiledText) (h : f.holds t.withoutReferences = true) :
    t.withoutReferences = t := by
  cases t with
  | reference u => exact absurd rfl (ht u)
  | sequence u =>
    have hcharacter : u.withoutReferences.isCharacter = true := by
      cases f <;> simp only [Destination.withoutReferences] at h <;>
        generalize u.withoutReferences = v at h ⊢ <;> cases v <;> first | rfl | cases h
    rw [Destination.isCharacter_withoutReferences] at hcharacter
    cases u with
    | reference u => exact absurd ⟨u, rfl, hcharacter⟩ hveiled
    | _ => first | rfl | cases hcharacter
  | _ => rfl

/-- The type of the elements of a list is a reference, if at all, on its outside only. -/
theorem withoutReferences_of_isElement (h : isElement u.dereferenced = true) :
    u.withoutReferences = u.dereferenced := by
  obtain ⟨f, hf⟩ := (isElement_iff.mp h).2
  rw [← Destination.withoutReferences_dereferenced, withoutReferences_of_holds hf]

/-- A family that supports a type without its references supports the type, unless the references
hide characters. -/
theorem supports_of_supports_withoutReferences (hhides : ¬t.HidesCharacters)
    (h : f.supports t.withoutReferences = true) : f.supports t.dereferenced = true := by
  obtain ⟨hveiled, hlist⟩ := not_or.mp hhides
  have hne := t.dereferenced_ne_reference
  rw [← Destination.withoutReferences_dereferenced] at h
  generalize t.dereferenced = d at hveiled hlist hne h ⊢
  rcases holds_of_supports h with hholds | ⟨rfl, u', hu', helem⟩
  · rw [withoutReferences_of_holds_withoutReferences hne hveiled hholds] at h
    exact h
  · cases d with
    | sequence u =>
      cases hu'
      rw [Destination.dereferenced_withoutReferences,
        ← Destination.withoutReferences_dereferenced] at helem
      obtain ⟨g, hg⟩ := (isElement_iff.mp helem).2
      rw [withoutReferences_of_holds_withoutReferences u.dereferenced_ne_reference
        (fun h => hlist ⟨u, rfl, h⟩) hg] at helem
      exact helem
    | reference u => exact absurd rfl (hne u)
    | _ => cases hu'

/-- Nothing supports characters that are hidden behind references. -/
theorem supports_of_hidesCharacters (h : t.HidesCharacters) (f : Family) :
    f.supports t.dereferenced = false := by
  rcases h with ⟨u, hu, hcharacter⟩ | ⟨v, hv, u, hu, -⟩
  · rw [hu]
    cases f with
    | list => simp [supports, Destination.dereferenced, isElement, hcharacter]
    | _ => rfl
  · rw [hv]
    cases f with
    | list =>
      rw [supports, hu]
      rfl
    | string =>
      cases v <;> first | rfl | cases hu
    | _ => rfl

theorem holds_string_of_isVeiledText (h : t.IsVeiledText) :
    string.holds t.withoutReferences = true := by
  obtain ⟨u, rfl, hcharacter⟩ := h
  rw [← Destination.isCharacter_withoutReferences] at hcharacter
  simp only [Destination.withoutReferences]
  generalize u.withoutReferences = v at hcharacter
  cases v with
  | byte | rune => rfl
  | _ => cases hcharacter

/-- Without the references that hide them the characters are supported. -/
theorem exists_supports_of_hidesCharacters (h : t.HidesCharacters) :
    ∃ f : Family, f.supports t.withoutReferences = true := by
  rw [← Destination.withoutReferences_dereferenced]
  rcases h with h | ⟨u, hu, h⟩
  · exact ⟨string, holds_string_of_isVeiledText h⟩
  · have hholds := holds_string_of_isVeiledText h
    rw [Destination.withoutReferences_dereferenced] at hholds
    refine ⟨list, ?_⟩
    rw [hu, Destination.withoutReferences, supports, Destination.dereferenced_withoutReferences]
    generalize u.withoutReferences = v at hholds
    cases v with
    | string | sequence => simp [isElement, Destination.isCharacter, hholds]
    | _ => cases hholds

end Family

namespace Converters

variable {cs : Converters} {s : Schema} {t u v : Destination}

/-- A list converts alike at two types of elements that refer to one type. -/
theorem agree_sequence (hu : Family.list.supports (.sequence u) = true)
    (huv : u.dereferenced = v.dereferenced) (m : Marker) :
    Agree (cs.convertTo s m (.sequence u)) (cs.convertTo s m (.sequence v)) := by
  have helement (m : Marker) : cs.convertTo s m u = cs.convertTo s m v := by
    rw [← convertTo_dereferenced cs s m u, ← convertTo_dereferenced cs s m v, huv]
  have hv : Family.list.supports (.sequence v) = true := by
    rw [Family.supports, ← huv]
    exact hu
  rw [convertTo_list hu, convertTo_list hv]
  simp only [helement]
  cases hx : m.value with
  | list xs => exact .refl _
  | _ => exact .error rfl

/-- A type converts as it does without the references in it, exactly where these hide no
characters. -/
theorem convertTo_withoutReferences (s : Schema) (m : Marker) (t : Destination) :
    Agree (empty.convertTo s m t) (empty.convertTo s m t.withoutReferences) ↔
      ¬t.HidesCharacters := by
  by_cases ht : ∃ f : Family, f.supports t.dereferenced = true
  · obtain ⟨f, hf⟩ := ht
    have hhides : ¬t.HidesCharacters := by
      intro h
      rw [Family.supports_of_hidesCharacters h] at hf
      cases hf
    refine iff_of_true ?_ hhides
    rw [← Destination.withoutReferences_dereferenced, ← convertTo_dereferenced empty s m t]
    rcases Family.holds_of_supports hf with hholds | ⟨rfl, u, hu, helem⟩
    · rw [Family.withoutReferences_of_holds hholds]
      exact .refl _
    · rw [hu] at hf ⊢
      refine agree_sequence hf ?_ m
      rw [Destination.dereferenced_withoutReferences, Family.withoutReferences_of_isElement helem]
  · have hnone : ∀ f : Family, f.supports t.dereferenced = false :=
      fun f => Bool.eq_false_iff.mpr fun hf => ht ⟨f, hf⟩
    rw [convertTo_of_unsupported hnone rfl]
    by_cases hhides : t.HidesCharacters
    · -- nothing serves the type, and a family serves it without its references
      refine iff_of_false ?_ (not_not_intro hhides)
      obtain ⟨f, hf⟩ := Family.exists_supports_of_hidesCharacters hhides
      rw [← Destination.dereferenced_withoutReferences] at hf
      intro h
      generalize hr : empty.convertTo s m t.withoutReferences = r at h
      cases h with
      | error h => exact variant_of_convertTo ⟨f, hf⟩ hr h.variant.symm
    · refine iff_of_true ?_ hhides
      have hnone' : ∀ f : Family, f.supports t.withoutReferences.dereferenced = false := by
        intro f
        rw [Destination.dereferenced_withoutReferences]
        exact Bool.eq_false_iff.mpr fun hf =>
          ht ⟨f, Family.supports_of_supports_withoutReferences hhides hf⟩
      rw [convertTo_of_unsupported hnone' rfl]
      exact .error rfl

/-- A sequence of references to bytes has no converter, though a sequence of bytes takes the bytes
of a text. -/
theorem convertTo_referenced_characters :
    let m : Marker := ⟨⟨"a", "b", "c"⟩, .string "hi", .start⟩
    let t := Destination.sequence (.reference .byte)
    empty.convertTo .empty m t = .error (.noConverter t) ∧
      empty.convertTo .empty m t.withoutReferences = .ok (.bytes [104, 105]) ∧
      ¬Agree (empty.convertTo .empty m t) (empty.convertTo .empty m t.withoutReferences) := by
  intro m t
  have hnone : empty.convertTo .empty m t = .error (.noConverter t) := rfl
  have hbytes : empty.convertTo .empty m t.withoutReferences = .ok (.bytes [104, 105]) := rfl
  refine ⟨hnone, hbytes, ?_⟩
  rw [hnone, hbytes]
  exact nofun

end Converters

end Markers
