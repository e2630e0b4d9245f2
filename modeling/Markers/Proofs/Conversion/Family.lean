import Markers.Conversion.Family

/-!
# Families and the types they support

A family serves a type if it supports the type behind all references. No two families support one
type (`supports_unique`). Of all families only that of lists looks at the conversion of elements,
and it supports a sequence only if some family supports the elements; so what is served is served in
all its depth (`Destination.Served`).
-/

namespace Markers

@[simp] theorem Destination.dereferenced_dereferenced (t : Destination) :
    t.dereferenced.dereferenced = t.dereferenced := by
  fun_induction dereferenced t with
  | case1 _ ih => exact ih
  | case2 t h => rw [dereferenced.eq_2 t h]

theorem Destination.dereferenced_ne_reference (t u : Destination) :
    t.dereferenced ≠ reference u := by
  induction t with
  | reference t ih => exact ih
  | _ => exact nofun

/-- A family serves the type. Where it makes lists, a family serves the elements as well. -/
inductive Destination.Served : Destination → Prop
  | single (h : Family.holds f t = true) : Served t
  | list (h : Family.list.supports (.sequence t) = true) (H : Served t) : Served (.sequence t)
  | reference (H : Served t) : Served (.reference t)

namespace Family

theorem mem_all (f : Family) : f ∈ all := by
  cases f <;> decide

theorem supports_of_find? {f : Family} {t : Destination} (h : find? t = some f) :
    f.supports t = true := by
  simpa using List.find?_some h

theorem find?_eq_none_iff {t : Destination} :
    find? t = none ↔ ∀ f : Family, f.supports t = false := by
  simp [find?, mem_all]

theorem exists_find?_iff {t : Destination} :
    (∃ f, find? t = some f) ↔ ∃ f : Family, f.supports t = true := by
  rw [← Option.isSome_iff_exists, find?, List.find?_isSome]
  simp [mem_all]

theorem supports_of_holds {f : Family} {t : Destination} (h : f.holds t = true) :
    f.supports t = true := by
  cases f <;> first | exact h | cases h

theorem holds_list (t : Destination) : list.holds t = false := by
  cases t <;> rfl

theorem ne_list_of_holds {f : Family} {t : Destination} (h : f.holds t = true) : f ≠ list := by
  rintro rfl
  rw [holds_list] at h
  cases h

/-- A family holds the types that it supports, except that lists are supported only. -/
theorem holds_of_supports {f : Family} {t : Destination} (h : f.supports t = true) :
    f.holds t = true ∨ f = list ∧ ∃ u, t = .sequence u ∧ isElement u.dereferenced = true := by
  unfold supports at h
  split at h
  · exact .inr ⟨rfl, _, rfl, h⟩
  · exact .inl h

/-- The elements of a list have a type that a family holds, other than that of a character. -/
theorem isElement_iff {t : Destination} :
    isElement t = true ↔ t.isCharacter = false ∧ ∃ f : Family, f.holds t = true := by
  simp only [isElement, Bool.and_eq_true, Bool.not_eq_true', List.any_eq_true]
  refine and_congr_right fun _ => ?_
  constructor
  · rintro ⟨f, -, hf⟩
    exact ⟨f, hf⟩
  · rintro ⟨f, hf⟩
    refine ⟨f, ?_, hf⟩
    have hlist := ne_list_of_holds hf
    cases f with
    | list => exact absurd rfl hlist
    | _ => simp

theorem dereferenced_of_supports {f : Family} {t : Destination} (h : f.supports t = true) :
    t.dereferenced = t := by
  cases t with
  | reference => cases f <;> cases h
  | _ => rfl

/-- The elements of a list have a type that a family supports. -/
theorem exists_supports_element {t : Destination} (h : list.supports (.sequence t) = true) :
    ∃ f : Family, f.supports t.dereferenced = true := by
  obtain ⟨f, hf⟩ := (isElement_iff.mp h).2
  exact ⟨f, supports_of_holds hf⟩

theorem served_of_supports {t : Destination} (h : ∃ f : Family, f.supports t.dereferenced = true) :
    t.Served := by
  induction t with
  | reference t ih => exact .reference (ih h)
  | sequence t ih =>
    obtain ⟨f, hf⟩ := h
    rcases holds_of_supports hf with hholds | ⟨rfl, -⟩
    · exact .single hholds
    · exact .list hf (ih (exists_supports_element hf))
  | _ =>
    obtain ⟨f, hf⟩ := h
    rcases holds_of_supports hf with hholds | ⟨-, u, hu, -⟩
    · exact .single hholds
    · cases hu

/-! ### One family for each type -/

theorem holds_unique {f g : Family} {t : Destination} (hf : f.holds t = true)
    (hg : g.holds t = true) : f = g := by
  unfold holds at hf
  split at hf
  case h_12 => cases hf
  all_goals cases g <;> first | rfl | cases hg

/-- A family holds sequences of characters only, and these are no lists. -/
theorem not_isElement_of_holds {f : Family} {t : Destination} (h : f.holds (.sequence t) = true) :
    isElement t.dereferenced = false := by
  cases t <;> first | rfl | (cases f <;> cases h)

theorem supports_unique {f g : Family} {t : Destination} (hf : f.supports t = true)
    (hg : g.supports t = true) : f = g := by
  rcases holds_of_supports hf with hf | ⟨rfl, u, rfl, helement⟩
  · rcases holds_of_supports hg with hg | ⟨rfl, u, rfl, helement⟩
    · exact holds_unique hf hg
    · rw [not_isElement_of_holds hf] at helement
      cases helement
  · rcases holds_of_supports hg with hg | ⟨rfl, -⟩
    · rw [not_isElement_of_holds hg] at helement
      cases helement
    · rfl

theorem find?_eq_some_iff {f : Family} {t : Destination} :
    find? t = some f ↔ f.supports t = true := by
  refine ⟨supports_of_find?, fun hf => ?_⟩
  obtain ⟨g, hg⟩ := exists_find?_iff.mpr ⟨f, hf⟩
  rw [hg, supports_unique hf (supports_of_find? hg)]

/-! ### Checks and conversions -/

/-- Only lists convert elements. -/
theorem convert_of_ne_list {f : Family} (hf : f ≠ list)
    (e e' : Literal → Except ConversionError Value) (x : Literal) (t : Destination) :
    f.convert e x t = f.convert e' x t := by
  cases f with
  | list => exact absurd rfl hf
  | _ => cases x <;> rfl

/-- What the check refuses is refused by the conversion as well, with the same error. -/
theorem convert_of_check_error {f : Family} {x : Literal} {t : Destination} {e : ConversionError}
    (h : f.check x t = .error e) (element : Literal → Except ConversionError Value) :
    f.convert element x t = .error e := by
  cases f with
  | any => cases h
  | integer =>
    cases x with
    | string s =>
      simp only [check, convert] at h ⊢
      split at h <;> cases h
      next hcharacter => rw [if_neg hcharacter]
    | _ => cases h <;> rfl
  | _ => cases x <;> cases h <;> rfl

end Family

end Markers
