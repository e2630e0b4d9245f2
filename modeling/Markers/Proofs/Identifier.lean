import Markers.Identifier
import Markers.Token.Lexeme
import Mathlib.Data.List.Basic

/-!
# Reading identifiers

What is read as an identifier is its three segments with colons between them, so an identifier shows
as the text it was read from (`toString_of_ofChars`), and reads back from there.
-/

namespace Markers.Identifier

theorem segment_of_noError {s : List Char} (h : segmentError? s = none) :
    ∃ c cs, s = c :: cs ∧ c.isLower = true ∧ ∀ a ∈ cs, isSegmentChar a = true := by
  cases s with
  | nil => cases h
  | cons c cs =>
    simp only [segmentError?] at h
    split at h
    · cases h
    · split at h
      · cases h
      · next hc =>
        split at h
        · cases h
        · next hcs =>
          refine ⟨c, cs, rfl, by simpa using hc, fun a ha => ?_⟩
          simpa using List.find?_eq_none.mp hcs a ha

theorem isSegmentChar_of_isLower {c : Char} (h : c.isLower = true) : isSegmentChar c = true := by
  simp [isSegmentChar, h]

theorem isSegmentChar_of_noError {s : List Char} (h : segmentError? s = none) :
    ∀ c ∈ s, isSegmentChar c = true := by
  obtain ⟨c, cs, rfl, hc, hcs⟩ := segment_of_noError h
  exact List.forall_mem_cons.mpr ⟨isSegmentChar_of_isLower hc, hcs⟩

/-- The three segments behind an identifier. -/
theorem segments_of_ofChars {text : List Char} {i : Identifier} (h : ofChars text = .ok i) :
    ∃ d r o, text = d ++ ':' :: (r ++ ':' :: o) ∧ segmentError? d = none ∧
      segmentError? r = none ∧ segmentError? o = none ∧
      i = ⟨String.ofList d, String.ofList r, String.ofList o⟩ := by
  unfold ofChars at h
  split at h
  · next d r o hsplit =>
    split at h
    · cases h
    · next hnone =>
      cases h
      simp only [List.findSome?_eq_none_iff, List.mem_cons, List.not_mem_nil, or_false,
        forall_eq_or_imp, forall_eq] at hnone
      have hjoin : [':'].intercalate (text.splitOn ':') = text := List.intercalate_splitOn ':'
      rw [hsplit] at hjoin
      exact ⟨d, r, o, by simpa [List.intercalate] using hjoin.symm, hnone.1, hnone.2.1,
        hnone.2.2, rfl⟩
  · cases h

/-- An identifier shows as the text it was read from. -/
theorem toString_of_ofChars {text : List Char} {i : Identifier} (h : ofChars text = .ok i) :
    toString i = String.ofList text := by
  obtain ⟨d, r, o, rfl, -, -, -, rfl⟩ := segments_of_ofChars h
  apply String.toList_inj.mp
  simp [toString]

theorem parse_ofList {text : List Char} {i : Identifier} (h : ofChars text = .ok i) :
    parse (String.ofList text) = .ok i := by
  rw [parse, String.toList_ofList, h]

theorem toString_of_parse {text : String} {i : Identifier} (h : parse text = .ok i) :
    toString i = text := by
  rw [toString_of_ofChars h, String.ofList_toList]

/-- Identifiers that were read are told apart by how they show. -/
theorem eq_of_toString_eq {s t : String} {i j : Identifier} (hi : parse s = .ok i)
    (hj : parse t = .ok j) (h : toString i = toString j) : i = j := by
  rw [toString_of_parse hi, toString_of_parse hj] at h
  subst h
  exact Except.ok.inj (hi.symm.trans hj)

theorem head_of_ofChars {text : List Char} {i : Identifier} (h : ofChars text = .ok i) :
    ∃ c cs, text = c :: cs ∧ c.isLower = true := by
  obtain ⟨d, r, o, rfl, hd, -⟩ := segments_of_ofChars h
  obtain ⟨c, cs, rfl, hc, -⟩ := segment_of_noError hd
  exact ⟨c, _, rfl, hc⟩

theorem isIdentifierChar_of_ofChars {text : List Char} {i : Identifier}
    (h : ofChars text = .ok i) : ∀ c ∈ text, Lexeme.isIdentifierChar c = true := by
  obtain ⟨d, r, o, rfl, hd, hr, ho, -⟩ := segments_of_ofChars h
  have hsegment {s : List Char} (hs : segmentError? s = none) :
      ∀ c ∈ s, Lexeme.isIdentifierChar c = true := by
    intro c hc
    simp [Lexeme.isIdentifierChar, isSegmentChar_of_noError hs c hc]
  simp only [List.forall_mem_append, List.forall_mem_cons]
  exact ⟨hsegment hd, rfl, hsegment hr, rfl, hsegment ho⟩

theorem not_mem_of_ofChars {text : List Char} {i : Identifier} {c : Char}
    (h : ofChars text = .ok i) (hc : Lexeme.isIdentifierChar c = false) : c ∉ text := by
  intro hmem
  rw [isIdentifierChar_of_ofChars h c hmem] at hc
  cases hc

end Markers.Identifier
