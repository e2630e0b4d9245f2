import Markers.Options
import Mathlib.Data.List.Basic

/-!
# Adding to options

A value that is added goes to the end of its identifier's values and changes no others (`Adds`). The
index of the entries carries this: it leads from an identifier to its entry and to no other.
-/

namespace Markers.Options

variable {o o' : Options} {d : Descriptor} {v : Value} {identifier : String}

/-- The identifiers in the order of their first occurrence. -/
def identifiers (o : Options) : List String := o.entries.map (·.identifier)

theorem contains_iff : o.contains identifier = true ↔ identifier ∈ o.identifiers := by
  rw [contains, Option.isSome_iff_exists, identifiers, List.mem_iff_getElem?]
  simp only [o.aligned identifier, List.getElem?_map]

theorem lookup_eq_none_iff : o.index.lookup identifier = none ↔ identifier ∉ o.identifiers := by
  rw [← contains_iff, contains, Bool.not_eq_true, Option.isSome_eq_false_iff,
    Option.isNone_iff_eq_none]

/-- The entry that the index leads to. -/
theorem entry_of_lookup {i : Nat} (h : o.index.lookup identifier = some i) :
    ∃ e, o.entries[i]? = some e ∧ e.identifier = identifier :=
  Option.map_eq_some_iff.mp ((o.aligned identifier i).mp h)

/-- The options that a value is added to, and those with the value. -/
structure Adds (o : Options) (identifier : String) (v : Value) (o' : Options) : Prop where
  identifiers : o'.identifiers =
    if identifier ∈ o.identifiers then o.identifiers else o.identifiers ++ [identifier]
  values : ∀ i, o'.values? i =
    if i = identifier then some ((o.values? identifier).getD [] ++ [v]) else o.values? i
  deprecations : o'.deprecations = o.deprecations

/-- The identifiers of what was added, without repetitions, stand in the order of its adding. -/
theorem Adds.identifiers_concat (H : o.Adds identifier v o') {names : List String}
    (h : o.identifiers = names.eraseDups) : o'.identifiers = (names ++ [identifier]).eraseDups := by
  rw [H.identifiers, h, List.eraseDups_append]
  split
  · next hmem => simp [List.removeAll, List.mem_eraseDups.mp hmem]
  · next hmem => simp [List.removeAll, mt List.mem_eraseDups.mpr hmem, List.eraseDups_cons]

theorem insert_repeated (hunique : d.unique = true) (h : o.contains d.identifier = true) :
    o.insert d v = .error (.repeated d.identifier) := by
  obtain ⟨i, hi⟩ := Option.isSome_iff_exists.mp h
  unfold insert
  split
  · rw [if_pos hunique]
  · next hnone =>
    rw [hi] at hnone
    cases hnone

theorem values?_of_lookup {i : Nat} {e : OptionEntry} (h : o.index.lookup identifier = some i)
    (he : o.entries[i]? = some e) : o.values? identifier = some e.values := by
  rw [values?, find?, h, Option.bind_some, he, Option.map_some]

theorem values?_of_lookup_none (h : o.index.lookup identifier = none) :
    o.values? identifier = none := by
  rw [values?, find?, h, Option.bind_none, Option.map_none]

/-- A value goes to the end of an entry. -/
theorem adds_push {i : Nat} (h : o.index.lookup identifier = some i)
    (hentries : o'.entries = o.entries.modify i (·.push v)) (hindex : o'.index = o.index)
    (hdeprecations : o'.deprecations = o.deprecations) : o.Adds identifier v o' := by
  obtain ⟨e, he, hid⟩ := entry_of_lookup h
  refine ⟨?_, fun j => ?_, hdeprecations⟩
  · have hmem : identifier ∈ o.identifiers := by
      rw [← contains_iff, contains, h]
      rfl
    rw [if_pos hmem, identifiers, hentries]
    apply List.ext_getElem?
    intro j
    simp only [identifiers, List.getElem?_map, List.getElem?_modify]
    split <;> cases o.entries[j]? <;> rfl
  · split
    · next heq =>
      subst heq
      have hpush : o'.entries[i]? = some (e.push v) := by simp [hentries, he]
      rw [values?_of_lookup h he, values?_of_lookup (hindex ▸ h) hpush]
      rfl
    · next hne =>
      cases hj : o.index.lookup j with
      | none => rw [values?_of_lookup_none hj, values?_of_lookup_none (hindex ▸ hj)]
      | some k =>
        obtain ⟨e', he', hid'⟩ := entry_of_lookup hj
        have hk : i ≠ k := by
          rintro rfl
          rw [he] at he'
          cases he'
          exact hne (hid'.symm.trans hid)
        have hsame : o'.entries[k]? = some e' := by simp [hentries, hk, he']
        rw [values?_of_lookup hj he', values?_of_lookup (hindex ▸ hj) hsame]

/-- A value makes a new last entry. -/
theorem adds_append (h : o.index.lookup identifier = none)
    (hentries : o'.entries = o.entries ++ [⟨identifier, v, []⟩])
    (hindex : o'.index = (identifier, o.entries.length) :: o.index)
    (hdeprecations : o'.deprecations = o.deprecations) : o.Adds identifier v o' := by
  refine ⟨?_, fun j => ?_, hdeprecations⟩
  · rw [if_neg (lookup_eq_none_iff.mp h), identifiers, hentries, List.map_append]
    rfl
  · split
    · next heq =>
      subst heq
      have hlookup : o'.index.lookup j = some o.entries.length := by simp [hindex]
      have hnew : o'.entries[o.entries.length]? = some ⟨j, v, []⟩ := by simp [hentries]
      rw [values?_of_lookup_none h, values?_of_lookup hlookup hnew]
      rfl
    · next hne =>
      have hlookup : o'.index.lookup j = o.index.lookup j := by
        have hbeq : (j == identifier) = false := beq_false_of_ne hne
        rw [hindex, List.lookup_cons, hbeq]
      cases hj : o.index.lookup j with
      | none => rw [values?_of_lookup_none hj, values?_of_lookup_none (hlookup.trans hj)]
      | some k =>
        obtain ⟨e, he, -⟩ := entry_of_lookup hj
        have hsame : o'.entries[k]? = some e := by
          rw [hentries, List.getElem?_append_left (List.getElem?_eq_some_iff.mp he).1, he]
        rw [values?_of_lookup hj he, values?_of_lookup (hlookup.trans hj) hsame]

theorem insert_adds (h : ¬(d.unique = true ∧ o.contains d.identifier = true)) :
    ∃ o', o.insert d v = .ok o' ∧ o.Adds d.identifier v o' := by
  unfold insert
  split
  · next i hi =>
    have hcontains : o.contains d.identifier = true := by
      rw [contains, hi]
      rfl
    rw [if_neg fun hunique => h ⟨hunique, hcontains⟩]
    exact ⟨_, rfl, adds_push hi rfl rfl rfl⟩
  · next hnone => exact ⟨_, rfl, adds_append hnone rfl rfl rfl⟩

/-! ### Uses of deprecated options -/

theorem noteUse_identifiers (o : Options) (d : Descriptor) (p : Position) :
    (o.noteUse d p).identifiers = o.identifiers := by
  unfold noteUse
  split <;> rfl

theorem noteUse_values? (o : Options) (d : Descriptor) (p : Position) (identifier : String) :
    (o.noteUse d p).values? identifier = o.values? identifier := by
  unfold noteUse
  split <;> rfl

theorem noteUse_deprecations (o : Options) (d : Descriptor) (p : Position) :
    (o.noteUse d p).deprecations =
      o.deprecations ++ (d.replacement.map (⟨d.identifier, ·, p⟩)).toList := by
  unfold noteUse
  split
  · next h => simp [h]
  · next h => simp [h]

end Markers.Options
