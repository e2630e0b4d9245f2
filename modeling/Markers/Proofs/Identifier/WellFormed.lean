import Markers.Proofs.Identifier

/-!
# Well-formed identifiers

The texts that are read as identifiers, described without reading them: three segments with colons
between them, where a segment is a lowercase letter and characters of four classes behind it
(`exists_parse_iff`).
-/

namespace Markers.Identifier

/-- A lowercase letter of ASCII. -/
def IsLetter (c : Char) : Prop := 'a' ≤ c ∧ c ≤ 'z'

/-- A character that may stand behind the first one of a segment. -/
def IsMedial (c : Char) : Prop := IsLetter c ∨ ('0' ≤ c ∧ c ≤ '9') ∨ c = '.' ∨ c = '_'

/-- A letter with medial characters behind it, of which the last is no dot and no underscore. -/
inductive IsSegment : List Char → Prop
  | mk (hc : IsLetter c) (hcs : ∀ a ∈ cs, IsMedial a)
    (hdot : (c :: cs).getLast? ≠ some '.') (hunderscore : (c :: cs).getLast? ≠ some '_') :
    IsSegment (c :: cs)

/-- Three segments with colons between them. -/
inductive IsWellFormed : List Char → Prop
  | mk (hd : IsSegment d) (hr : IsSegment r) (ho : IsSegment o) :
    IsWellFormed (d ++ ':' :: (r ++ ':' :: o))

variable {c : Char} {s d r o : List Char}

theorem isLower_iff : c.isLower = true ↔ IsLetter c := by
  have hrange : c.isLower = (decide ('a' ≤ c) && decide (c ≤ 'z')) := rfl
  rw [hrange, Bool.and_eq_true, decide_eq_true_iff, decide_eq_true_iff, IsLetter]

theorem isSegmentChar_iff : isSegmentChar c = true ↔ IsMedial c := by
  have hdigit : c.isDigit = true ↔ '0' ≤ c ∧ c ≤ '9' := by simp [Char.isDigit, Char.le_def]
  simp [isSegmentChar, IsMedial, isLower_iff, hdigit, or_assoc]

theorem IsLetter.ne (hc : IsLetter c) {a : Char} (ha : a.isLower = false) : c ≠ a := by
  rintro rfl
  rw [isLower_iff.mpr hc] at ha
  cases ha

theorem IsSegment.colon_not_mem (h : IsSegment s) : ':' ∉ s := by
  cases h with
  | mk hc hcs =>
    intro hmem
    rcases List.mem_cons.mp hmem with heq | hmem
    · exact hc.ne rfl heq.symm
    · exact absurd (isSegmentChar_iff.mpr (hcs _ hmem)) (by decide)

theorem getLast?_cons_eq_some_iff {a : Char} (h : c ≠ a) :
    (c :: s).getLast? = some a ↔ s.getLast? = some a := by
  rw [List.getLast?_cons]
  cases s.getLast? <;> simp [h]

theorem isDigit_of_isLower (h : c.isLower = true) : c.isDigit = false := by
  have hc := isLower_iff.mp h
  simp only [IsLetter, Char.le_def, UInt32.le_iff_toNat_le] at hc
  simp only [Char.isDigit, Bool.and_eq_false_iff, decide_eq_false_iff_not, ge_iff_le,
    UInt32.le_iff_toNat_le]
  simp at hc ⊢
  omega

theorem segmentError?_cons_eq_none_iff : segmentError? (c :: s) = none ↔
    c.isLower = true ∧ (∀ a ∈ s, isSegmentChar a = true) ∧
      s.getLast? ≠ some '.' ∧ s.getLast? ≠ some '_' := by
  simp only [segmentError?]
  split
  · next hdigit =>
    refine iff_of_false (Option.some_ne_none _) fun h => ?_
    rw [isDigit_of_isLower h.1] at hdigit
    cases hdigit
  · split
    · next hlower =>
      refine iff_of_false (Option.some_ne_none _) fun h => ?_
      simp [h.1] at hlower
    · next hlower =>
      split
      · next hbad =>
        refine iff_of_false (Option.some_ne_none _) fun h => ?_
        have hvalid := h.2.1 _ (List.mem_of_find?_eq_some hbad)
        have hinvalid := List.find?_some hbad
        simp [hvalid] at hinvalid
      · next hvalid => simp_all

/-- The segments are the texts that have none of the faults of a segment. -/
theorem segmentError?_eq_none_iff : segmentError? s = none ↔ IsSegment s := by
  constructor
  · intro h
    obtain ⟨c, cs, rfl, -⟩ := segment_of_noError h
    obtain ⟨hlower, hchars, hdot, hunderscore⟩ := segmentError?_cons_eq_none_iff.mp h
    have hc := isLower_iff.mp hlower
    rw [ne_eq, ← getLast?_cons_eq_some_iff (hc.ne rfl)] at hdot hunderscore
    exact .mk hc (fun a ha => isSegmentChar_iff.mp (hchars a ha)) hdot hunderscore
  · rintro ⟨hc, hcs, hdot, hunderscore⟩
    rw [ne_eq, getLast?_cons_eq_some_iff (hc.ne rfl)] at hdot hunderscore
    exact segmentError?_cons_eq_none_iff.mpr
      ⟨isLower_iff.mpr hc, fun a ha => isSegmentChar_iff.mpr (hcs a ha), hdot, hunderscore⟩

theorem ofChars_of_segments (hd : IsSegment d) (hr : IsSegment r) (ho : IsSegment o) :
    ofChars (d ++ ':' :: (r ++ ':' :: o)) =
      .ok ⟨String.ofList d, String.ofList r, String.ofList o⟩ := by
  have hsplit : (d ++ ':' :: (r ++ ':' :: o)).splitOn ':' = [d, r, o] := by
    have hcolon : ∀ s ∈ [d, r, o], ':' ∉ s := by
      simp [hd.colon_not_mem, hr.colon_not_mem, ho.colon_not_mem]
    simpa [List.intercalate] using List.splitOn_intercalate ':' hcolon (by simp)
  have hfaultless : [d, r, o].findSome? segmentError? = none := by
    simp [segmentError?_eq_none_iff.mpr, hd, hr, ho]
  simp only [ofChars, hsplit, hfaultless]

/-- What is read as an identifier is what is well formed. -/
theorem exists_ofChars_iff : (∃ i, ofChars s = .ok i) ↔ IsWellFormed s := by
  constructor
  · rintro ⟨i, hi⟩
    obtain ⟨d, r, o, rfl, hd, hr, ho, -⟩ := segments_of_ofChars hi
    rw [segmentError?_eq_none_iff] at hd hr ho
    exact .mk hd hr ho
  · rintro ⟨hd, hr, ho⟩
    exact ⟨_, ofChars_of_segments hd hr ho⟩

theorem exists_parse_iff {text : String} :
    (∃ i, parse text = .ok i) ↔ IsWellFormed text.toList :=
  exists_ofChars_iff

end Markers.Identifier
