import Markers.Proofs.Conversion.Registration

/-!
# The types that families support

No two families support one type, so it does not matter in which order they are asked. Without
registered converters, a type resolves exactly if the type behind its references is one of those
listed in `Destination.IsSupported`; a list has elements of the types in `Destination.IsElement`,
which are lists in no depth.
-/

namespace Markers

namespace Destination

/-- The types of the elements of lists. Characters are none of them, for a sequence of characters is
a text. -/
inductive IsElement : Destination → Prop
  | bool : IsElement .bool
  | string : IsElement .string
  | any : IsElement .any
  | signed (hw : w = 8 ∨ w = 16 ∨ w = 32 ∨ w = 64) : IsElement (.signed w)
  | unsigned (hw : w = 8 ∨ w = 16 ∨ w = 32 ∨ w = 64) : IsElement (.unsigned w)
  | float (hw : w = 32 ∨ w = 64) : IsElement (.float w)
  | complex (hw : w = 64 ∨ w = 128) : IsElement (.complex w)
  | bytes : IsElement (.sequence .byte)
  | chars : IsElement (.sequence .rune)

/-- The types that families support. -/
inductive IsSupported : Destination → Prop
  | element (H : IsElement t) : IsSupported t
  | byte : IsSupported .byte
  | rune : IsSupported .rune
  | list (H : IsElement t.dereferenced) : IsSupported (.sequence t)

end Destination

open Destination (IsElement IsSupported)

namespace Family

variable {f : Family} {t : Destination}

theorem isElement_or_isCharacter_of_holds (h : f.holds t = true) :
    IsElement t ∨ t = .byte ∨ t = .rune := by
  unfold holds at h
  split at h
  case h_1 => exact .inl .bool
  case h_2 => exact .inl .string
  case h_3 => exact .inl .bytes
  case h_4 => exact .inl .chars
  case h_5 => exact .inr (.inl rfl)
  case h_6 => exact .inr (.inr rfl)
  case h_7 => exact .inl (.signed (by simpa [or_assoc] using h))
  case h_8 => exact .inl (.unsigned (by simpa [or_assoc] using h))
  case h_9 => exact .inl (.float (by simpa using h))
  case h_10 => exact .inl (.complex (by simpa using h))
  case h_11 => exact .inl .any
  case h_12 => cases h

theorem exists_holds_of_isElement (H : IsElement t) : ∃ f : Family, f.holds t = true := by
  cases H with
  | bool => exact ⟨.bool, rfl⟩
  | string | bytes | chars => exact ⟨.string, rfl⟩
  | any => exact ⟨.any, rfl⟩
  | signed hw | unsigned hw => exact ⟨.integer, by simpa [holds, or_assoc] using hw⟩
  | float hw => exact ⟨.float, by simpa [holds] using hw⟩
  | complex hw => exact ⟨.complex, by simpa [holds] using hw⟩

theorem isElement_eq_true_iff : isElement t = true ↔ IsElement t := by
  rw [isElement_iff]
  constructor
  · rintro ⟨hcharacter, f, hf⟩
    rcases isElement_or_isCharacter_of_holds hf with H | rfl | rfl
    · exact H
    · cases hcharacter
    · cases hcharacter
  · intro H
    refine ⟨?_, exists_holds_of_isElement H⟩
    cases H <;> rfl

/-- A family supports a type exactly if the type is one of those listed. -/
theorem exists_supports_iff : (∃ f : Family, f.supports t = true) ↔ IsSupported t := by
  constructor
  · rintro ⟨f, hf⟩
    rcases holds_of_supports hf with hholds | ⟨rfl, u, rfl, helement⟩
    · rcases isElement_or_isCharacter_of_holds hholds with H | rfl | rfl
      · exact .element H
      · exact .byte
      · exact .rune
    · exact .list (isElement_eq_true_iff.mp helement)
  · intro H
    cases H with
    | element H =>
      obtain ⟨f, hf⟩ := exists_holds_of_isElement H
      exact ⟨f, supports_of_holds hf⟩
    | byte | rune => exact ⟨.integer, rfl⟩
    | list H => exact ⟨.list, isElement_eq_true_iff.mpr H⟩

/-- The first family that supports a type is the only one, wherever it stands. -/
theorem find?_of_perm {families : List Family} (h : families.Perm all) (t : Destination) :
    families.find? (·.supports t) = find? t := by
  cases hfind : find? t with
  | none =>
    have hnone := find?_eq_none_iff.mp hfind
    apply List.find?_eq_none.mpr
    intro f _
    rw [hnone f]
    exact Bool.false_ne_true
  | some f =>
    have hf := supports_of_find? hfind
    have hsome : (families.find? (·.supports t)).isSome := by
      rw [List.find?_isSome]
      exact ⟨f, h.mem_iff.mpr (mem_all f), hf⟩
    obtain ⟨g, hg⟩ := Option.isSome_iff_exists.mp hsome
    have hsupports : g.supports t = true := by simpa using List.find?_some hg
    rw [hg, supports_unique hf hsupports]

end Family

namespace Converters

/-- What serves a type where the families are asked in an order of their own. -/
def resolveInOrder (families : List Family) (cs : Converters) (t : Destination) :
    Except ConversionError Server :=
  let t := t.dereferenced
  match families.find? (·.supports t), cs.find? t with
  | some f, _ => .ok (.family f)
  | none, some c => .ok (.registered c)
  | none, none => .error (.noConverter t)

/-- At most one family supports a type, so a type resolves alike in whatever order the families are
asked. Without registered converters exactly the types resolve that are listed, and the references
to them; any other lacks a converter. -/
theorem families_partition :
    (∀ (t : Destination) (f g : Family), f.supports t = true → g.supports t = true → f = g) ∧
    (∀ families : List Family, families.Perm Family.all → ∀ (cs : Converters) (t : Destination),
      cs.resolveInOrder families t = cs.resolve t) ∧
    ∀ t : Destination, ((∃ s, empty.resolve t = .ok s) ↔ t.dereferenced.IsSupported) ∧
      (¬t.dereferenced.IsSupported → empty.resolve t = .error (.noConverter t.dereferenced)) := by
  refine ⟨fun t f g => Family.supports_unique, fun families h cs t => ?_, fun t => ?_⟩
  · simp only [resolveInOrder, Family.find?_of_perm h]
    rfl
  · rw [← Family.exists_supports_iff]
    by_cases ht : ∃ f : Family, f.supports t.dereferenced = true
    · obtain ⟨f, hf⟩ := ht
      have hresolve : empty.resolve t = .ok (.family f) :=
        resolve_of_find? (Family.find?_eq_some_iff.mpr hf)
      exact ⟨iff_of_true ⟨_, hresolve⟩ ⟨f, hf⟩, fun hnone => absurd ⟨f, hf⟩ hnone⟩
    · have hnone : ∀ f : Family, f.supports t.dereferenced = false :=
        fun f => Bool.eq_false_iff.mpr fun hf => ht ⟨f, hf⟩
      have hresolve : empty.resolve t = .error (.noConverter t.dereferenced) :=
        resolve_of_unsupported hnone rfl
      refine ⟨iff_of_false ?_ ht, fun _ => hresolve⟩
      rintro ⟨s, hs⟩
      rw [hresolve] at hs
      cases hs

/-- A list of texts resolves behind references, but a sequence of references to bytes does not. -/
theorem families_partition_texts :
    let texts := Destination.reference (.sequence (.reference (.sequence .byte)))
    let veiled := Destination.reference (.sequence (.reference .byte))
    (Family.list.supports texts.dereferenced = true ∧ Family.all.reverse.Perm Family.all ∧
      empty.resolveInOrder Family.all.reverse texts = empty.resolve texts ∧
      ∃ s, empty.resolve texts = .ok s) ∧
    ¬veiled.dereferenced.IsSupported ∧
      empty.resolve veiled = .error (.noConverter (.sequence (.reference .byte))) := by
  intro texts veiled
  obtain ⟨-, horder, hresolves⟩ := families_partition
  have htexts : texts.dereferenced.IsSupported := .list .bytes
  have hveiled : ¬veiled.dereferenced.IsSupported := by
    intro H
    cases H with
    | element H => cases H
    | list H => cases H
  exact ⟨⟨rfl, List.reverse_perm _, horder _ (List.reverse_perm _) empty texts,
    (hresolves texts).1.mpr htexts⟩, hveiled, (hresolves veiled).2 hveiled⟩

end Converters

end Markers
