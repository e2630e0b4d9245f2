import Markers.Proofs.Grammar.Soundness
import Markers.Proofs.Options
import Markers.Schema
import Mathlib.Data.List.Induction

/-!
# Converting a block

A block is converted one marker after another. Where a marker fails behind those before it, the
block fails with it, and otherwise the values are grouped by identifier. `Groups` says what the
options of some markers are; a marker that does not fail takes it to the next (`Groups.step`).
-/

namespace Markers

/-- How the identifier of a marker shows. -/
def Marker.name (m : Marker) : String := toString m.identifier

namespace Schema

variable {s : Schema} {t : Target} {o o' : Options} {m : Marker} {ms : List Marker}

/-- May the option of the marker occur only once? -/
def isUnique (s : Schema) (m : Marker) : Bool := (s.registry.find? m.name).any (·.unique)

/-- What is noted of the marker, if its option is deprecated. -/
def deprecation? (s : Schema) (m : Marker) : Option Deprecation :=
  (s.registry.find? m.name).bind fun d => d.replacement.map (⟨m.name, ·, m.position⟩)

/-- Why a marker fails behind other ones, if it does. -/
def failure? (s : Schema) (t : Target) (before : List Marker) (m : Marker) : Option BlockError :=
  match s.convert m t with
  | .error e => some e
  | .ok _ =>
    if s.isUnique m ∧ m.identifier ∈ before.map (·.identifier) then some (.repeated m.name)
    else none

/-- No marker fails behind those before it. -/
def Passes (s : Schema) (t : Target) (ms : List Marker) : Prop :=
  ∀ front m rest, ms = front ++ m :: rest → s.failure? t front m = none

/-- The options hold what the markers convert to. -/
structure Groups (s : Schema) (t : Target) (ms : List Marker) (o : Options) : Prop where
  identifiers : o.identifiers = (ms.map (·.name)).eraseDups
  values : ∀ name, (o.values? name).map (·.map .ok) =
    if name ∈ ms.map (·.name) then some ((ms.filter (·.name = name)).map (s.convert · t)) else none
  deprecations : o.deprecations = ms.filterMap s.deprecation?

/-! ### One marker -/

theorem addMarker_error {e : BlockError} (h : s.convert m t = .error e) :
    s.addMarker t o m = .error e := by
  simp only [convert, addMarker] at h ⊢
  cases hd : s.lookup (toString m.identifier) with
  | error e' =>
    rw [hd] at h
    obtain rfl : e' = e := Except.error.inj h
    rfl
  | ok d =>
    rw [hd] at h
    simp only [bind, Except.bind] at h ⊢
    rw [h]

theorem addMarker_ok {v : Value} (h : s.convert m t = .ok v) :
    ∃ d, s.registry.find? m.name = some d ∧ d.identifier = m.name ∧
      s.addMarker t o m = (o.noteUse d m.position).insert d v := by
  simp only [convert, addMarker, lookup] at h ⊢
  split at h
  · next d hd =>
    have hname : d.identifier = toString m.identifier := by simpa using List.find?_some hd
    refine ⟨d, hd, hname, ?_⟩
    simp only [bind, Except.bind] at h ⊢
    rw [h]
  · cases h

namespace Groups

theorem nil : s.Groups t [] .empty := ⟨rfl, fun _ => rfl, rfl⟩

theorem getD_values (H : s.Groups t ms o) (name : String) :
    ((o.values? name).getD []).map .ok = (ms.filter (·.name = name)).map (s.convert · t) := by
  have hvalues := H.values name
  split at hvalues
  · obtain ⟨vs, hvs, heq⟩ := Option.map_eq_some_iff.mp hvalues
    rw [hvs, Option.getD_some, heq]
  · next hname =>
    have hnone : ms.filter (·.name = name) = [] := by
      rw [List.filter_eq_nil_iff]
      intro m hm heq
      exact hname (List.mem_map.mpr ⟨m, hm, of_decide_eq_true heq⟩)
    rw [Option.map_eq_none_iff.mp hvalues, hnone]
    rfl

/-- A marker that converts is added behind the markers before it. -/
theorem concat {d : Descriptor} {v : Value} (H : s.Groups t ms o) (hv : s.convert m t = .ok v)
    (hd : s.registry.find? m.name = some d) (hname : d.identifier = m.name)
    (hadds : (o.noteUse d m.position).Adds m.name v o') : s.Groups t (ms ++ [m]) o' := by
  refine ⟨?_, fun name => ?_, ?_⟩
  · rw [List.map_append, List.map_singleton]
    apply hadds.identifiers_concat
    rw [Options.noteUse_identifiers, H.identifiers]
  · rw [hadds.values, Options.noteUse_values?, Options.noteUse_values?]
    by_cases heq : name = m.name
    · subst heq
      rw [if_pos rfl, if_pos (by simp), Option.map_some, List.map_append, H.getD_values m.name,
        List.filter_append, List.map_append]
      simp [hv]
    · have hlast : [m].filter (·.name = name) = [] := by simp [Ne.symm heq]
      rw [if_neg heq, H.values name, List.filter_append, hlast, List.append_nil, List.map_append,
        List.map_singleton]
      simp [heq]
  · rw [hadds.deprecations, Options.noteUse_deprecations, H.deprecations, List.filterMap_append]
    simp only [List.filterMap_cons, List.filterMap_nil, deprecation?, hd, Option.bind_some, hname]
    cases d.replacement <;> rfl

/-- A marker fails as it should, and is added otherwise. -/
theorem step (H : s.Groups t ms o)
    (hsame : ∀ m' ∈ ms, m'.name = m.name → m'.identifier = m.identifier) :
    (∀ e, s.failure? t ms m = some e → s.addMarker t o m = .error e) ∧
    (s.failure? t ms m = none → ∃ o', s.addMarker t o m = .ok o' ∧ s.Groups t (ms ++ [m]) o') := by
  cases hv : s.convert m t with
  | error e =>
    simp only [failure?, hv]
    refine ⟨?_, nofun⟩
    rintro e ⟨⟩
    exact addMarker_error hv
  | ok v =>
    obtain ⟨d, hd, hname, hadd⟩ := addMarker_ok (o := o) hv
    have hunique : s.isUnique m = d.unique := by rw [isUnique, hd, Option.any_some]
    have hcontains : (o.noteUse d m.position).contains d.identifier = true ↔
        m.identifier ∈ ms.map (·.identifier) := by
      rw [Options.contains_iff, Options.noteUse_identifiers, H.identifiers, List.mem_eraseDups,
        hname, List.mem_map, List.mem_map]
      constructor
      · rintro ⟨m', hm', heq⟩
        exact ⟨m', hm', hsame m' hm' heq⟩
      · rintro ⟨m', hm', heq⟩
        exact ⟨m', hm', congrArg toString heq⟩
    simp only [failure?, hv, hunique, ← hcontains]
    split
    · next hrepeated =>
      refine ⟨?_, nofun⟩
      rintro e ⟨⟩
      rw [hadd, Options.insert_repeated hrepeated.1 hrepeated.2, hname]
    · next hfree =>
      refine ⟨nofun, fun _ => ?_⟩
      obtain ⟨o', ho', hadds⟩ := Options.insert_adds (v := v) hfree
      rw [hname] at hadds
      exact ⟨o', hadd.trans ho', H.concat hv hd hname hadds⟩

end Groups

/-! ### A whole block -/

theorem passes_nil : s.Passes t [] := by
  intro front m rest h
  simp at h

theorem passes_concat_iff :
    s.Passes t (ms ++ [m]) ↔ s.Passes t ms ∧ s.failure? t ms m = none := by
  refine ⟨fun h => ⟨?_, h ms m [] rfl⟩, ?_⟩
  · rintro front m' rest rfl
    exact h front m' (rest ++ [m]) (by simp)
  · rintro ⟨h, hlast⟩ front m' rest heq
    cases rest using List.reverseRecOn with
    | nil =>
      obtain ⟨rfl, rfl⟩ := List.append_singleton_inj.mp heq
      exact hlast
    | append_singleton rest m'' =>
      rw [← List.cons_append, ← List.append_assoc] at heq
      exact h front m' rest (List.append_singleton_inj.mp heq).1

theorem passes_or_fails (s : Schema) (t : Target) (ms : List Marker) :
    s.Passes t ms ∨ ∃ e front m rest, ms = front ++ m :: rest ∧ s.Passes t front ∧
      s.failure? t front m = some e := by
  induction ms using List.reverseRecOn with
  | nil => exact .inl passes_nil
  | append_singleton ms m ih =>
    rcases ih with h | ⟨e, front, m', rest, rfl, hfront, he⟩
    · cases hlast : s.failure? t ms m with
      | none => exact .inl (passes_concat_iff.mpr ⟨h, hlast⟩)
      | some e => exact .inr ⟨e, ms, m, [], rfl, h, hlast⟩
    · exact .inr ⟨e, front, m', rest ++ [m], by simp, hfront, he⟩

theorem foldlM_concat (f : Options → Marker → Except BlockError Options)
    (h : ms.foldlM f .empty = .ok o) : (ms ++ [m]).foldlM f .empty = f o m := by
  rw [List.foldlM_append, h]
  exact bind_pure (f o m)

/-- Identifiers that were read are one where they show alike. -/
theorem sameIdentifier_of_read
    (hread : ∀ m' ∈ ms ++ [m], ∃ name, Identifier.parse name = .ok m'.identifier) :
    ∀ m' ∈ ms, m'.name = m.name → m'.identifier = m.identifier := by
  intro m' hm' heq
  obtain ⟨_, hname'⟩ := hread m' (List.mem_append_left _ hm')
  obtain ⟨_, hname⟩ := hread m (List.mem_append_right _ (List.mem_singleton_self m))
  exact Identifier.eq_of_toString_eq hname' hname heq

/-- Markers that pass are grouped. -/
theorem groups_of_passes (h : s.Passes t ms)
    (hread : ∀ m ∈ ms, ∃ name, Identifier.parse name = .ok m.identifier) :
    ∃ o, ms.foldlM (s.addMarker t) .empty = .ok o ∧ s.Groups t ms o := by
  induction ms using List.reverseRecOn with
  | nil => exact ⟨.empty, rfl, .nil⟩
  | append_singleton ms m ih =>
    obtain ⟨h, hlast⟩ := passes_concat_iff.mp h
    obtain ⟨o, ho, H⟩ := ih h fun m' hm' => hread m' (List.mem_append_left _ hm')
    obtain ⟨o', ho', H'⟩ := (H.step (sameIdentifier_of_read hread)).2 hlast
    exact ⟨o', (foldlM_concat _ ho).trans ho', H'⟩

/-- The first marker that fails is what the markers fail with. -/
theorem foldlM_error {front rest : List Marker} {e : BlockError} (hfront : s.Passes t front)
    (he : s.failure? t front m = some e)
    (hread : ∀ m' ∈ front ++ m :: rest, ∃ name, Identifier.parse name = .ok m'.identifier) :
    (front ++ m :: rest).foldlM (s.addMarker t) .empty = .error e := by
  rw [List.append_cons] at hread ⊢
  replace hread := (List.forall_mem_append.mp hread).1
  obtain ⟨o, ho, H⟩ := groups_of_passes hfront fun m' hm' =>
    hread m' (List.mem_append_left _ hm')
  have hm := (H.step (sameIdentifier_of_read hread)).1 e he
  rw [List.foldlM_append, foldlM_concat _ ho, hm]
  rfl

/-- A block is converted one marker after another. It fails with the first marker that fails, either
to convert or as another occurrence of a unique option. Where none does, the options hold all values
by identifier. -/
theorem convertBlock_fails_or_groups (s : Schema) (text : String) (t : Target) :
    match Marker.parse text with
    | .error e => s.convertBlock text t = .error (.parse e)
    | .ok ms =>
      (∀ e, s.convertBlock text t = .error e ↔ ∃ front m rest, ms = front ++ m :: rest ∧
        s.Passes t front ∧ s.failure? t front m = some e) ∧
      (s.Passes t ms → ∃ o, s.convertBlock text t = .ok o ∧ s.Groups t ms o) := by
  cases hparse : Marker.parse text with
  | error e => simp only [convertBlock, hparse]
  | ok ms =>
    have hread := Marker.identifier_parses hparse
    simp only [convertBlock, hparse]
    refine ⟨fun e => ⟨fun h => ?_, ?_⟩, fun h => groups_of_passes h hread⟩
    · rcases s.passes_or_fails t ms with hpasses | ⟨e', front, m, rest, rfl, hfront, he⟩
      · obtain ⟨o, ho, -⟩ := groups_of_passes hpasses hread
        rw [ho] at h
        cases h
      · rw [foldlM_error hfront he hread] at h
        cases h
        exact ⟨front, m, rest, rfl, hfront, he⟩
    · rintro ⟨front, m, rest, rfl, hfront, he⟩
      exact foldlM_error hfront he hread

end Schema

end Markers
