import Markers.Proofs.Conversion.Depth
import Markers.Proofs.Grammar.Completeness
import Markers.Proofs.Registry
import Markers.Proofs.Schema

/-!
# Blocks and later definitions

A block asks its registry for the identifiers of its markers alone, and for none behind the first
marker that fails; what a marker then converts to is up to the converters, to which no definition
makes a difference if they are pure. So a block that is once decided stays decided, whatever is
defined later, and one that lacks a definition waits for just that one (`convertBlock_afterCalls`).
-/

namespace Markers.Schema

variable {s : Schema} {r : Registry} {t : Target} {o : Options} {m : Marker} {ms : List Marker}
  {d : Descriptor} {name : String}

/-! ### What a marker asks for -/

theorem addMarker_undefined (h : s.registry.find? m.name = none) :
    s.addMarker t o m = .error (.notDefined m.name) := by
  have hlookup : s.lookup m.name = .error (.notDefined m.name) := by
    rw [lookup, h]
  rw [addMarker, ← Marker.name, hlookup]
  rfl

theorem addMarker_defined (h : s.registry.find? m.name = some d) :
    s.addMarker t o m = (s.convertWith d m t).bind ((o.noteUse d m.position).insert d) := by
  have hlookup : s.lookup m.name = .ok d := by
    rw [lookup, h]
  rw [addMarker, ← Marker.name, hlookup]
  rfl

theorem convertWith_ne_notDefined : s.convertWith d m t ≠ .error (.notDefined name) := by
  unfold convertWith
  split
  · cases s.convertTo m d.destination <;> exact nofun
  · exact nofun

theorem insert_ne_notDefined {v : Value} :
    o.insert d v ≠ .error (.notDefined name) := by
  unfold Options.insert
  split
  · split <;> exact nofun
  · exact nofun

/-- Only an option that is not defined is reported as such. -/
theorem find?_of_addMarker (h : s.addMarker t o m = .error (.notDefined name)) :
    s.registry.find? name = none := by
  cases hd : s.registry.find? m.name with
  | none =>
    rw [addMarker_undefined hd] at h
    cases h
    exact hd
  | some d =>
    rw [addMarker_defined hd] at h
    cases hv : s.convertWith d m t with
    | error e =>
      rw [hv] at h
      cases h
      exact absurd hv convertWith_ne_notDefined
    | ok v =>
      rw [hv] at h
      exact absurd h insert_ne_notDefined

/-- A marker is added alike where more is defined, provided that its own option still lacks a
definition if it lacked one. -/
theorem addMarker_of_le (hle : s.registry ≤ r)
    (hnone : ∀ name, s.addMarker t o m = .error (.notDefined name) → r.find? name = none) :
    { s with registry := r }.addMarker t o m = s.addMarker t o m := by
  cases hd : s.registry.find? m.name with
  | none =>
    have hundefined := addMarker_undefined (t := t) (o := o) hd
    rw [hundefined]
    exact addMarker_undefined (hnone _ hundefined)
  | some d =>
    rw [addMarker_defined hd]
    exact addMarker_defined (hle _ _ hd)

/-! ### What a block asks for -/

theorem find?_of_foldlM (h : ms.foldlM (s.addMarker t) o = .error (.notDefined name)) :
    s.registry.find? name = none := by
  induction ms generalizing o with
  | nil => cases h
  | cons m ms ih =>
    rw [List.foldlM_cons] at h
    cases hm : s.addMarker t o m with
    | error e =>
      rw [hm] at h
      cases h
      exact find?_of_addMarker hm
    | ok o' =>
      rw [hm] at h
      exact ih h

theorem foldlM_of_le (hle : s.registry ≤ r)
    (hnone : ∀ name, ms.foldlM (s.addMarker t) o = .error (.notDefined name) →
      r.find? name = none) :
    ms.foldlM ({ s with registry := r }.addMarker t) o = ms.foldlM (s.addMarker t) o := by
  induction ms generalizing o with
  | nil => rfl
  | cons m ms ih =>
    rw [List.foldlM_cons] at hnone ⊢
    rw [List.foldlM_cons]
    cases hm : s.addMarker t o m with
    | error e =>
      rw [addMarker_of_le hle fun name h => hnone name (by rw [h]; rfl), hm]
      rfl
    | ok o' =>
      have hstep : { s with registry := r }.addMarker t o m = .ok o' := by
        rw [← hm]
        refine addMarker_of_le hle fun name h => ?_
        rw [hm] at h
        cases h
      rw [hstep]
      rw [hm] at hnone
      exact ih hnone

/-- The options of a block of one marker. -/
theorem convertBlock_of_parse {text : String} (h : Marker.parse text = .ok [m]) :
    s.convertBlock text t = s.addMarker t .empty m := by
  rw [convertBlock, h]
  exact bind_pure _

theorem find?_of_convertBlock {text : String}
    (h : s.convertBlock text t = .error (.notDefined name)) : s.registry.find? name = none := by
  unfold convertBlock at h
  split at h
  · cases h
  · exact find?_of_foldlM h

theorem convertBlock_of_le {text : String} (hle : s.registry ≤ r)
    (hnone : ∀ name, s.convertBlock text t = .error (.notDefined name) → r.find? name = none) :
    { s with registry := r }.convertBlock text t = s.convertBlock text t := by
  unfold convertBlock at hnone ⊢
  split
  · rfl
  · next hparse =>
    simp only [hparse] at hnone
    exact foldlM_of_le hle hnone

/-- Where converters are pure, calls that define options, be they accepted or refused, change nothing
of what a block gives, its options or its error, unless the block fails for want of a definition
that one of them gives. -/
theorem convertBlock_afterCalls {cs : Converters} (hpure : cs.IsPure) (s : Schema) (depth : Nat)
    (ds : List Descriptor) (text : String) (t : Target) :
    let before := cs.schema s depth
    let after := cs.schema { s with registry := s.registry.afterCalls ds } depth
    match before.convertBlock text t with
    | .error (.notDefined name) =>
      after.convertBlock text t = .error (.notDefined name) ↔ ¬Registry.Defines name s.registry ds
    | result => after.convertBlock text t = result := by
  intro before after
  have hafter : after = { before with registry := s.registry.afterCalls ds } :=
    Converters.schema_withRegistry hpure s _ depth
  have hregistry : before.registry = s.registry := cs.schema_registry s depth
  have hle : before.registry ≤ s.registry.afterCalls ds := by
    rw [hregistry]
    exact s.registry.le_afterCalls ds
  rw [hafter]
  split
  · next name h =>
    have hbefore := find?_of_convertBlock h
    rw [hregistry] at hbefore
    constructor
    · intro h'
      exact (Registry.find?_afterCalls_eq_none_iff.mp (find?_of_convertBlock h')).2
    · intro hdefines
      have hafter := Registry.find?_afterCalls_eq_none_iff.mpr ⟨hbefore, hdefines⟩
      rw [← h]
      refine convertBlock_of_le hle fun name' h' => ?_
      rw [h] at h'
      cases h'
      exact hafter
  · next hne =>
    exact convertBlock_of_le hle fun name h => absurd h (hne name)

/-- A converter that asks back serves the only option. A block with this option stays as it is, and
one with another option waits for its definition. -/
theorem convertBlock_afterCalls_singleton :
    let cs := Converters.empty.afterCalls [(.unsigned 128, .singleton (.unsigned 8))]
    let d : Descriptor := { identifier := "a:b:c", destination := .unsigned 128 }
    let s : Schema := { empty with registry := ⟨[d], List.pairwise_singleton _ d⟩ }
    let later ds := cs.schema { s with registry := s.registry.afterCalls ds } 2
    let block name := "+" ++ name ++ "=" ++ "7"
    cs.IsPure ∧
    (∃ o, (cs.schema s 2).convertBlock (block "a:b:c") .field = .ok o ∧
      o.values? "a:b:c" = some [.list [.u8 7]] ∧
      ∀ ds, (later ds).convertBlock (block "a:b:c") .field = .ok o) ∧
    ∀ ds, (later ds).convertBlock (block "a:b:d") .field = .error (.notDefined "a:b:d") ↔
      ¬Registry.Defines "a:b:d" s.registry ds := by
  intro cs d s later block
  have hpure : cs.IsPure := Converters.isPure_afterCalls (by simp [Converter.isPure_singleton])
  have hseven : Grammar.Value "7".toList (.int 7) := .scalar (.number (n := .int 7) rfl)
  have hc : Identifier.parse "a:b:c" = .ok ⟨"a", "b", "c"⟩ := by decide +kernel
  have hd : Identifier.parse "a:b:d" = .ok ⟨"a", "b", "d"⟩ := by decide +kernel
  have haccepts : d.accepts .field = true := (by decide : Targets.all.contains .field = true)
  have hmarker : ∃ o, (cs.schema s 2).addMarker .field .empty ⟨⟨"a", "b", "c"⟩, .int 7, .start⟩ =
      .ok o ∧ o.values? "a:b:c" = some [.list [.u8 7]] := by
    rw [addMarker_defined (d := d) rfl, convertWith, if_pos haccepts]
    refine ⟨_, rfl, ?_⟩
    rfl
  refine ⟨hpure, ?_, fun ds => ?_⟩
  · obtain ⟨o, ho, hvalues⟩ := hmarker
    have hblock := (convertBlock_of_parse (Marker.parse_of_value hc hseven)).trans ho
    refine ⟨o, hblock, hvalues, fun ds => ?_⟩
    have h := convertBlock_afterCalls hpure s 2 ds (block "a:b:c") .field
    simp only [block, hblock] at h
    exact h
  · have hblock : (cs.schema s 2).convertBlock (block "a:b:d") .field =
        .error (.notDefined "a:b:d") :=
      (convertBlock_of_parse (Marker.parse_of_value hd hseven)).trans (addMarker_undefined rfl)
    have h := convertBlock_afterCalls hpure s 2 ds (block "a:b:d") .field
    simp only [hblock] at h
    exact h

end Markers.Schema
