import Markers.Proofs.Grammar.Scalar
import Markers.Token.Stream

/-!
# Moving over a text

A cursor moves over parts of its text, and parts join. The lemmas say over which part each lexeme
and each line of prose moves the cursor, and how a line starts.
-/

namespace Markers

open Grammar (Scalar IsIndent StartsMarker)

/-- One cursor comes before another, with a part of the text between them. -/
structure Cursor.Moves (c : Cursor) (part : List Char) (c' : Cursor) : Prop where
  rest : c.rest = part ++ c'.rest
  position : c'.position = c.position.advance part

namespace Cursor

variable {c c' c'' : Cursor}

namespace Moves

theorem trans {s t : List Char} (h : c.Moves s c') (h' : c'.Moves t c'') :
    c.Moves (s ++ t) c'' := by
  constructor
  · rw [h.rest, h'.rest, List.append_assoc]
  · rw [h'.position, h.position, Position.advance_append]

theorem suffix {part : List Char} (h : c.Moves part c') : c'.rest <:+ c.rest :=
  ⟨part, h.rest.symm⟩

theorem behind {s rest : List Char} (h : c.rest = s ++ rest) : c.Moves s (c.behind s rest) :=
  ⟨h, rfl⟩

theorem split {s t : List Char} (h : c.Moves (s ++ t) c') :
    ∃ c'', c.Moves s c'' ∧ c''.Moves t c' := by
  have hrest : c.rest = s ++ (t ++ c'.rest) := by rw [h.rest, List.append_assoc]
  refine ⟨_, .behind hrest, rfl, ?_⟩
  rw [h.position, Position.advance_append]
  rfl

theorem eq_behind {part : List Char} (h : c.Moves part c') : c' = c.behind part c'.rest := by
  rw [Cursor.behind, ← h.position]

theorem eq_of_nil (h : c.Moves [] c') : c' = c := by
  rw [h.eq_behind, ← h.rest.trans (List.nil_append _)]
  rfl

theorem unique {part : List Char} (h : c.Moves part c') (h' : c.Moves part c'') : c' = c'' := by
  have hrest := List.append_cancel_left (h.rest.symm.trans h'.rest)
  rw [h.eq_behind, h'.eq_behind, hrest]

/-- The place of a cursor is counted in the text in front of it. -/
theorem endOf {before part : List Char} (h : c.Moves part c')
    (hc : c.position = .endOf before) : c'.position = .endOf (before ++ part) := by
  rw [h.position, hc, Position.advance_endOf]

theorem length_lt {part : List Char} (h : c.Moves part c') (hne : part ≠ []) :
    c'.rest.length < c.rest.length := by
  have := List.length_pos_iff.mpr hne
  rw [h.rest, List.length_append]
  omega

end Moves

theorem moves_dropWhile (c : Cursor) (p : Char → Bool) :
    c.Moves (c.rest.takeWhile p) (c.dropWhile p) :=
  .behind List.takeWhile_append_dropWhile.symm

/-! ### Scalars -/

/-- A token that stands for a scalar, and the scalar's part of the text. -/
structure IsScalar (c : Cursor) (t : Token) (c' : Cursor) (part : List Char) (x : Literal) :
    Prop where
  moves : c.Moves part c'
  scalar : Scalar part x
  announces : t.Announces x
  text : t.text = String.ofList part
  position : t.position = c.position

theorem isScalar_of_scalar {t : Token} (h : c.scalar = .ok (t, c')) :
    ∃ part x, c.IsScalar t c' part x := by
  unfold scalar at h
  split at h
  · cases h
  · next hs =>
    cases h
    obtain ⟨x, hscalar, hannounces⟩ := Grammar.scalar_sound c.position hs
    exact ⟨_, x, .behind (Lexeme.append_of_scalar hs).1.symm, hscalar, hannounces, rfl, rfl⟩

theorem isScalar_of_scalarBehind {last : Position} {t : Token}
    (h : c.scalarBehind last = .ok (t, c')) : ∃ part x, c.IsScalar t c' part x := by
  unfold scalarBehind at h
  split at h
  · cases h
  · exact isScalar_of_scalar h

theorem isScalar_of_elementBehind {last : Position} {t : Token}
    (h : c.elementBehind last = .ok (t, c')) : ∃ part x, c.IsScalar t c' part x := by
  unfold elementBehind at h
  split at h
  · cases h
  · exact isScalar_of_scalar h

theorem scalar_of_moves {part : List Char} {x : Literal} (hx : Scalar part x)
    (h : c.Moves part c') (hrest : Lexeme.Closed c'.rest) :
    ∃ t, c.scalar = .ok (t, c') ∧ t.literal = .ok x := by
  obtain ⟨k, hs, hliteral⟩ := Grammar.scalar_complete hx hrest
  rw [← h.rest] at hs
  refine ⟨_, ?_, hliteral c.position⟩
  rw [scalar, hs, h.eq_behind]
  rfl

theorem scalarBehind_of_moves {part : List Char} {x : Literal} (hx : Scalar part x)
    (h : c.Moves part c') (hrest : Lexeme.Closed c'.rest) (last : Position) :
    ∃ t, c.scalarBehind last = .ok (t, c') ∧ t.literal = .ok x := by
  have hstart := hx.scalarStart? c'.rest
  rw [← h.rest] at hstart
  simp only [scalarBehind, hstart]
  exact scalar_of_moves hx h hrest

theorem elementBehind_of_moves {part : List Char} {x : Literal} (hx : Scalar part x)
    (h : c.Moves part c') (hrest : Lexeme.Closed c'.rest) (last : Position) :
    ∃ t, c.elementBehind last = .ok (t, c') ∧ t.literal = .ok x := by
  have hstart := hx.elementStart? c'.rest
  rw [← h.rest] at hstart
  simp only [elementBehind, hstart]
  exact scalar_of_moves hx h hrest

/-! ### Lines -/

/-- Prose is left behind the end of its line. -/
theorem nextLine_cases (c : Cursor) :
    ∃ line, '\n' ∉ line ∧
      (c.Moves line c.nextLine ∧ c.nextLine.rest = [] ∨ c.Moves (line ++ ['\n']) c.nextLine) := by
  have hmoves := c.moves_dropWhile (· ≠ '\n')
  have hhead {a : Char} {cs : List Char} (h : (c.dropWhile (· ≠ '\n')).rest = a :: cs) :
      a = '\n' := by
    have hnot := List.head?_dropWhile_not (· ≠ '\n') c.rest
    rw [show c.rest.dropWhile (· ≠ '\n') = a :: cs from h] at hnot
    simpa using hnot
  have hnext : c.nextLine = (c.dropWhile (· ≠ '\n')).behind
    ((c.dropWhile (· ≠ '\n')).rest.take 1) ((c.dropWhile (· ≠ '\n')).rest.drop 1) := rfl
  refine ⟨c.rest.takeWhile (· ≠ '\n'), fun hmem => ?_, ?_⟩
  · exact absurd (List.mem_takeWhile_imp hmem) (by simp)
  · rw [hnext]
    cases hrest : (c.dropWhile (· ≠ '\n')).rest with
    | nil => exact .inl ⟨by simpa using hmoves.trans (.behind (s := []) hrest), rfl⟩
    | cons a cs =>
      cases hhead hrest
      exact .inr (hmoves.trans (.behind hrest))

/-- What stands at the beginning of a line, and the scan that it leads to. -/
inductive LineStart (c : Cursor) : Scan → Prop
  | finish (h : IsIndent c.rest) : LineStart c (.ofToken (.finish (c.position.advance c.rest)))
  | marker {indent : List Char} {c' : Cursor} (hindent : IsIndent indent)
    (h : c.Moves (indent ++ ['+']) c') (hstart : StartsMarker c.rest) :
    LineStart c (.cons ⟨.plus, "+", c.position.advance indent⟩ c'.marker)
  | prose {line : List Char} {c' : Cursor} (h : c.Moves line c') (hend : c'.rest = [])
    (hline : '\n' ∉ line) (hstart : ¬StartsMarker c.rest) : LineStart c (.resumeAt c')
  | proseLine {line : List Char} {c' : Cursor} (h : c.Moves (line ++ ['\n']) c')
    (hline : '\n' ∉ line) (hstart : ¬StartsMarker c.rest) : LineStart c (.resumeAt c')

theorem isIndent_takeWhile (s : List Char) : IsIndent (s.takeWhile isIndent) := by
  intro c hc
  simpa [isIndent] using List.mem_takeWhile_imp hc

theorem dropWhile_isIndent {indent : List Char} (h : IsIndent indent) {a : Char}
    (ha : isIndent a = false) (cs : List Char) :
    (indent ++ a :: cs).takeWhile isIndent = indent ∧
      (indent ++ a :: cs).dropWhile isIndent = a :: cs := by
  have hall : ∀ c ∈ indent, isIndent c = true := fun c hc => by simpa [isIndent] using h c hc
  rw [List.takeWhile_append_of_pos hall, List.dropWhile_append_of_pos hall]
  simp [ha]

theorem scan_prose (hstart : ¬StartsMarker c.rest) :
    LineStart c (.resumeAt (c.dropWhile isIndent).nextLine) := by
  have hindent := c.moves_dropWhile isIndent
  have hn : '\n' ∉ c.rest.takeWhile isIndent :=
    (isIndent_takeWhile c.rest).newline_not_mem
  obtain ⟨line, hline, ⟨hmoves, hend⟩ | hmoves⟩ := (c.dropWhile isIndent).nextLine_cases
  · exact .prose (hindent.trans hmoves) hend (by simp [hn, hline]) hstart
  · have hmoves := hindent.trans hmoves
    rw [← List.append_assoc] at hmoves
    exact .proseLine hmoves (by simp [hn, hline]) hstart

theorem lineStart (c : Cursor) : c.LineStart c.scan := by
  have hmoves := c.moves_dropWhile isIndent
  have hindent := isIndent_takeWhile c.rest
  have hstart (h : StartsMarker c.rest) :
      ∃ l cs, (c.dropWhile isIndent).rest = '+' :: l :: cs ∧ l.isLower = true := by
    obtain ⟨indent, l, cs, hindent, heq, hl⟩ := h
    refine ⟨l, cs, ?_, hl⟩
    simp only [dropWhile, behind, heq]
    exact (dropWhile_isIndent hindent rfl _).2
  simp only [scan]
  split
  · next hrest =>
    have heq := hmoves.rest
    rw [hrest, List.append_nil] at heq
    rw [hmoves.position, ← heq]
    exact .finish (heq ▸ hindent)
  · next l cs hrest =>
    split
    · next hl =>
      have hstart : StartsMarker c.rest := ⟨_, l, cs, hindent, by rw [← hrest, ← hmoves.rest], hl⟩
      have hmarker := LineStart.marker hindent (hmoves.trans (.behind (s := ['+']) hrest)) hstart
      rw [← hmoves.position] at hmarker
      exact hmarker
    · next hl =>
      refine scan_prose fun h => ?_
      obtain ⟨l', cs', heq, hl'⟩ := hstart h
      rw [hrest] at heq
      cases heq
      exact hl hl'
  · next hne hplus =>
    refine scan_prose fun h => ?_
    obtain ⟨l, cs, heq, -⟩ := hstart h
    exact hplus _ _ heq

/-- A line that starts a marker is scanned as one. -/
theorem scan_marker {indent : List Char} {l : Char} {cs : List Char} (hindent : IsIndent indent)
    (hrest : c.rest = indent ++ '+' :: l :: cs) (hl : l.isLower = true) :
    ∃ c', c.Moves (indent ++ ['+']) c' ∧
      c.scan = .cons ⟨.plus, "+", c.position.advance indent⟩ c'.marker := by
  have hmoves := c.moves_dropWhile isIndent
  obtain ⟨htake, hdrop⟩ := dropWhile_isIndent hindent (a := '+') rfl (l :: cs)
  rw [hrest, htake] at hmoves
  have hplus : (c.dropWhile isIndent).rest = '+' :: l :: cs := by
    simp only [dropWhile, behind, hrest, hdrop]
  refine ⟨_, hmoves.trans (.behind hplus), ?_⟩
  simp only [scan, hplus, hl, if_true, token, hmoves.position]

end Cursor

end Markers
