import Markers.Proofs.Identifier
import Markers.Proofs.Token.Move

/-!
# Runs of the scan

What a scan may do from each of its stages, as a derivation: the tokens that it gives, the parts of
the text that they stand for, and where it ends. Each state of the scan has a run at one stage, and
what holds of all scans is shown by cases or by induction on the run.
-/

namespace Markers

open Grammar (IsLineEnd)

/-- What a stream of tokens goes on with. -/
inductive Stage where
  | marker | identifier | assign | value | element | separator
  deriving DecidableEq

/-- A scan from a cursor at a stage. Behind a marker it is over, or resumes behind the line end. -/
inductive Run : Stage → Cursor → Scan → Prop
  | fault (q : Stage) (c : Cursor) (f : Fault) (p : Position) : Run q c (.ofFault f p)
  | finish {c : Cursor} (h : c.rest = []) : Run .marker c (.ofToken (.finish c.position))
  | lineEnd {c c' : Cursor} (he : IsLineEnd e) (h : c.Moves e c') : Run .marker c (.resumeAt c')
  | identifier {c c' : Cursor} (hname : Identifier.ofChars name = .ok i) (h : c.Moves name c')
    (H : Run .assign c' s) :
    Run .identifier c (.cons ⟨.identifier, String.ofList name, c.position⟩ s)
  | assign {c c' : Cursor} (h : c.Moves ['='] c') (H : Run .value c' s) :
    Run .assign c (.cons ⟨.assign, "=", c.position⟩ s)
  | bare {c : Cursor} (H : Run .marker c s) :
    Run .assign c (.cons ⟨.assign, "=", c.position⟩ (.cons ⟨.bool, "true", c.position⟩ s))
  | scalar {c c' : Cursor} (ht : c.IsScalar t c' part x) (H : Run .marker c' s) :
    Run .value c (.cons t s)
  | raw {c c' : Cursor} (htext : Lexeme.backTick ∉ text)
    (h : c.Moves (Lexeme.backTick :: (text ++ [Lexeme.backTick])) c') (H : Run .marker c' s) :
    Run .value c (.cons ⟨.string,
      String.ofList (Lexeme.backTick :: (text ++ [Lexeme.backTick])), c.position⟩ s)
  | list {c c' : Cursor} (h : c.Moves ['['] c') (H : Run .element c' s) :
    Run .value c (.cons ⟨.listOpen, "[", c.position⟩ s)
  | element {c c' : Cursor} (ht : c.IsScalar t c' part x) (H : Run .separator c' s) :
    Run .element c (.cons t s)
  | comma {c c' : Cursor} (h : c.Moves [',', ' '] c') (H : Run .element c' s) :
    Run .separator c (.cons ⟨.comma, ",", c.position⟩ s)
  | commaFault {c c' : Cursor} (h : c.Moves [','] c') (f : Fault) (p : Position) :
    Run .separator c (.cons ⟨.comma, ",", c.position⟩ (.ofFault f p))
  | close {c c' : Cursor} (h : c.Moves [']'] c') (H : Run .marker c' s) :
    Run .separator c (.cons ⟨.listClose, "]", c.position⟩ s)

/-- Scanning resumes in what is left of the text. -/
theorem Run.suffix {q : Stage} {c c' : Cursor} {s : Scan} (H : Run q c s)
    (hresume : s.resume = some c') : c'.rest <:+ c.rest := by
  induction H with
  | fault | finish | commaFault => cases hresume
  | lineEnd _ h =>
    cases hresume
    exact h.suffix
  | bare _ ih => exact ih hresume
  | scalar ht _ ih | element ht _ ih => exact (ih hresume).trans ht.moves.suffix
  | identifier _ h _ ih | raw _ h _ ih => exact (ih hresume).trans h.suffix
  | assign h _ ih | list h _ ih | comma h _ ih | close h _ ih =>
    exact (ih hresume).trans h.suffix

namespace Cursor

theorem run_afterValue (last : Position) (c : Cursor) : Run .marker c (c.afterValue last) := by
  rw [afterValue]
  split
  · next hrest => exact .finish hrest
  · next hrest => exact .lineEnd (.inl rfl) (.behind (s := ['\n']) hrest)
  · next hrest => exact .lineEnd (.inr rfl) (.behind (s := ['\r', '\n']) hrest)
  · exact .fault _ _ _ _

theorem run_afterElements (last : Position) (c : Cursor) :
    Run .separator c (c.afterElements last) := by
  rw [afterElements]
  split
  · next hrest => exact .close (.behind (s := [']']) hrest) (run_afterValue _ _)
  · next hrest => exact .commaFault (.behind (s := [',']) hrest) _ _
  all_goals exact .fault _ _ _ _

theorem run_elements (last : Position) (c : Cursor) : Run .element c (c.elements last) := by
  fun_induction elements last c with
  | case1 => exact .fault _ _ _ _
  | case2 _ _ _ _ helem _ hrest ih =>
    obtain ⟨_, _, ht⟩ := isScalar_of_elementBehind helem
    exact .element ht (.comma (.behind (s := [',', ' ']) hrest) ih)
  | case3 _ _ _ _ helem _ =>
    obtain ⟨_, _, ht⟩ := isScalar_of_elementBehind helem
    exact .element ht (run_afterElements _ _)

theorem run_value (last : Position) (c : Cursor) : Run .value c (c.value last) := by
  rw [value]
  split
  · next hrest => exact .list (.behind (s := ['[']) hrest) (run_elements _ _)
  · next hrest =>
    split
    · exact .fault _ _ _ _
    · next hraw =>
      have happend := (Lexeme.append_of_raw hraw).1
      rw [hrest] at hraw
      obtain ⟨text, rfl, htext⟩ := Lexeme.raw_sound hraw
      exact .raw htext (.behind happend.symm) (run_afterValue _ _)
  · split
    · exact .fault _ _ _ _
    · next hs =>
      obtain ⟨_, _, ht⟩ := isScalar_of_scalarBehind hs
      exact .scalar ht (run_afterValue _ _)

theorem run_afterIdentifier (last : Position) (c : Cursor) :
    Run .assign c (c.afterIdentifier last) := by
  have hbare : Run .assign c c.bareMarker := .bare (run_afterValue _ _)
  rw [afterIdentifier]
  split
  · next hrest => exact .assign (.behind (s := ['=']) hrest) (run_value _ _)
  · exact hbare
  · exact hbare
  · exact hbare
  · exact .fault _ _ _ _

theorem run_marker (c : Cursor) : Run .identifier c c.marker := by
  rw [marker]
  split
  · exact .fault _ _ _ _
  · next hname =>
    obtain ⟨i, hi⟩ := Lexeme.identifier_sound hname
    have happend := (Lexeme.append_of_identifier hname).1
    exact .identifier hi (.behind happend.symm) (run_afterIdentifier _ _)

end Cursor

end Markers
