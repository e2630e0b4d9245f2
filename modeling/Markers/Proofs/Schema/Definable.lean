import Markers.Proofs.Grammar.Completeness
import Markers.Proofs.Identifier.WellFormed
import Markers.Proofs.Registry
import Markers.Schema

/-!
# Definable identifiers

An option can be defined exactly if a marker can carry its identifier: the registry, the scan and
the grammar of identifiers agree on all texts. So each marker of a text that parses has a definable
option, and finds its descriptor once the option is defined.
-/

namespace Markers

/-- The tokens of a text that is one marker with an identifier and no value. -/
inductive Token.IsBareMarker (name : String) : List Token → Prop
  | mk (hp : p.kind = .plus) (hi : i.kind = .identifier) (hname : i.text = name)
    (ha : a.kind = .assign) (hb : b.kind = .bool) (hf : f.kind = .finish) :
    IsBareMarker name [p, i, a, b, f]

namespace Cursor

variable {c : Cursor} {name : List Char} {i : Identifier}

/-- A marker that ends with its identifier is true. -/
theorem marker_bare (hname : Identifier.ofChars name = .ok i) (hrest : c.rest = name) :
    ∃ p, c.marker.all = [⟨.identifier, String.ofList name, c.position⟩, ⟨.assign, "=", p⟩,
      ⟨.bool, "true", p⟩, .finish p] := by
  have hfollow : ∀ c ∈ ([] : List Char).head?, Lexeme.isIdentifierChar c = false := nofun
  have hidentifier : Lexeme.identifier c.rest = .ok (name, []) := by
    simpa [hrest] using Lexeme.identifier_complete hname hfollow
  have hend : (c.behind name []).rest = [] := rfl
  refine ⟨(c.behind name []).position, ?_⟩
  simp only [marker, hidentifier, token, Scan.all_cons, afterIdentifier_bare (.inl hend),
    bareMarker, all_afterValue_nil hend]

theorem isBareMarker_tokens (hname : Identifier.ofChars name = .ok i)
    (hrest : c.rest = '+' :: name) : Token.IsBareMarker (String.ofList name) c.tokens := by
  obtain ⟨l, ls, rfl, hl⟩ := Identifier.head_of_ofChars hname
  obtain ⟨c', hmoves, hscan⟩ := scan_marker Grammar.isIndent_nil hrest hl
  have hrest' : c'.rest = l :: ls := by
    have heq := hmoves.rest
    rw [hrest] at heq
    exact (List.cons.inj heq).2.symm
  obtain ⟨p, hp⟩ := marker_bare hname hrest'
  rw [tokens_eq, hscan, Scan.all_cons, hp]
  exact .mk rfl rfl rfl rfl rfl rfl

end Cursor

/-- The identifier of a marker has been read. -/
theorem Stream.parse_of_isBareMarker {ts : List Token} {name : String} (H : Stream q ts)
    (h : Token.IsBareMarker name ts) : ∃ i, Identifier.parse name = .ok i := by
  cases h with
  | mk hp hi hname =>
    cases H with
    | cons hq _ H =>
      cases H with
      | cons _ hsound _ =>
        obtain ⟨i, hi, -⟩ := hsound.identifier hi
        exact ⟨i, hname ▸ hi⟩

/-- The texts that can stand behind a plus sign as a whole marker. -/
theorem isBareMarker_tokenize_iff {name : String} :
    Token.IsBareMarker name (tokenize ("+" ++ name)) ↔ ∃ i, Identifier.parse name = .ok i := by
  constructor
  · exact (Cursor.stream_tokens _).parse_of_isBareMarker
  · rintro ⟨i, hi⟩
    have hrest : (Cursor.ofString ("+" ++ name)).rest = '+' :: name.toList := by
      simp [Cursor.ofString]
    have hbare := Cursor.isBareMarker_tokens hi hrest
    rwa [String.ofList_toList] at hbare

namespace Schema

/-- The identifiers that can be defined are those that a marker can carry, which are those that are
well formed. They show as they are written. Every marker of a text that parses has such an
identifier, and from its definition on, whatever else is defined, finds its descriptor. -/
theorem definable_iff_carried :
    (∀ (r : Registry) (d : Descriptor), r.contains d.identifier = false →
      ((∃ r', r.define d = .ok r') ↔
        Token.IsBareMarker d.identifier (tokenize ("+" ++ d.identifier))) ∧
      ((∃ r', r.define d = .ok r') ↔ Identifier.IsWellFormed d.identifier.toList)) ∧
    (∀ name : String, Identifier.IsWellFormed name.toList →
      ∃ i, Identifier.parse name = .ok i ∧ toString i = name) ∧
    ∀ text ms, Marker.parse text = .ok ms → ∀ m ∈ ms, ∀ (s : Schema) (d : Descriptor),
      d.identifier = toString m.identifier → s.registry.contains d.identifier = false →
      ∃ r, s.registry.define d = .ok r ∧ ∀ later,
        { s with registry := r.afterCalls later }.lookup (toString m.identifier) = .ok d := by
  refine ⟨fun r d hfree => ?_, fun name hname => ?_, ?_⟩
  · have hnone : r.find? d.identifier = none := by simpa [Registry.contains] using hfree
    rw [isBareMarker_tokenize_iff, ← Identifier.exists_parse_iff, Registry.exists_define_iff,
      and_iff_left hnone]
    exact ⟨.rfl, .rfl⟩
  · obtain ⟨i, hi⟩ := Identifier.exists_parse_iff.mpr hname
    exact ⟨i, hi, Identifier.toString_of_parse hi⟩
  · intro text ms hparse m hm s d hd hfree
    obtain ⟨name, hname⟩ := Marker.identifier_parses hparse m hm
    have hnone : s.registry.find? d.identifier = none := by simpa [Registry.contains] using hfree
    have hdefinable : ∃ i, Identifier.parse d.identifier = .ok i :=
      ⟨_, by rwa [hd, Identifier.toString_of_parse hname]⟩
    obtain ⟨r, hr⟩ := Registry.exists_define_iff.mpr ⟨hdefinable, hnone⟩
    refine ⟨r, hr, fun later => ?_⟩
    have hfind : (r.afterCalls later).find? (toString m.identifier) = some d := by
      refine r.le_afterCalls later _ _ ?_
      rw [Registry.find?_define hr, if_pos hd]
    simp only [lookup, hfind]

theorem definable_iff_carried_dotted :
    let i : Identifier := ⟨"a1", "b.c", "d_e"⟩
    let d : Descriptor := { identifier := toString i, destination := .bool }
    Marker.parse "+a1:b.c:d_e" = .ok [⟨i, .bool true, .start⟩] ∧
      Identifier.IsWellFormed d.identifier.toList ∧ Registry.empty.contains d.identifier = false ∧
      Token.IsBareMarker d.identifier (tokenize ("+" ++ d.identifier)) ∧
      (∃ j, Identifier.parse d.identifier = .ok j ∧ toString j = d.identifier) ∧
      ∃ r, Registry.empty.define d = .ok r ∧
        ∀ later, { empty with registry := r.afterCalls later }.lookup (toString i) = .ok d := by
  intro i d
  have hname : Identifier.ofChars d.identifier.toList = .ok i := by decide +kernel
  have hblock : Grammar.Block [] ([] ++ '+' :: (d.identifier.toList ++ []))
      [⟨i, .bool true, .start⟩] := .segment (.mk Grammar.isIndent_nil hname .bare rfl)
  have hparse : Marker.parse "+a1:b.c:d_e" = .ok [⟨i, .bool true, .start⟩] :=
    Cursor.tokens_of_block hblock rfl (by decide +kernel)
  have hformed : Identifier.IsWellFormed d.identifier.toList :=
    Identifier.exists_ofChars_iff.mp ⟨i, hname⟩
  obtain ⟨hdefine, hshow, hlookup⟩ := definable_iff_carried
  obtain ⟨r, hr, hlater⟩ := hlookup _ _ hparse _ (List.mem_singleton_self _) empty d rfl rfl
  exact ⟨hparse, hformed, rfl, (hdefine .empty d rfl).1.mp ⟨r, hr⟩, hshow _ hformed, r, hr, hlater⟩

end Schema

end Markers
