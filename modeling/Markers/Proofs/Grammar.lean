import Markers.Marker
import Markers.Literal.Number
import Markers.Literal.Quoted
import Markers.Token.Lexeme

/-!
# The marker grammar

The texts that hold markers, as relations between a text and what it means. A text is lines, each of
which is prose or one marker; a text between back-ticks may carry a marker over several lines. The
relations say nothing of tokens, of lookahead or of how far a lexeme extends.

Places are counted in the text itself: `Position.endOf` is the place behind a text, and a block
knows the text in front of it.
-/

namespace Markers

/-- The place behind a text. Line feeds are what ends a line, and the column counts the characters
behind the last of them. -/
def Position.endOf (text : List Char) : Position :=
  ⟨text.count '\n' + 1, (text.reverse.takeWhile (· ≠ '\n')).length + 1⟩

namespace Position

theorem step_endOf (text : List Char) (c : Char) :
    (endOf text).step c = endOf (text ++ [c]) := by
  by_cases hc : c = '\n' <;> simp [step, endOf, hc]

theorem advance_endOf (text s : List Char) : (endOf text).advance s = endOf (text ++ s) := by
  induction s generalizing text with
  | nil => simp
  | cons c s ih => rw [advance_cons, step_endOf, ih, List.append_assoc, List.singleton_append]

theorem endOf_nil : endOf [] = start := rfl

end Position

namespace Grammar

/-- A bool, a quoted text or a number, and the literal that it denotes. -/
inductive Scalar : List Char → Literal → Prop
  | bool (b : Bool) : Scalar (toString b).toList (.bool b)
  | string (h : Quoted.ofChars t = .ok s) : Scalar t (.string (String.ofList s))
  | number (h : Number.ofChars t = .ok n) : Scalar t n.toLiteral

/-- One scalar or more, with a comma and a space between two. -/
inductive Scalars : List Char → List Literal → Prop
  | one (h : Scalar t x) : Scalars t [x]
  | cons (h : Scalar t x) (H : Scalars ts xs) : Scalars (t ++ ',' :: ' ' :: ts) (x :: xs)

/-- A value of a marker. -/
inductive Value : List Char → Literal → Prop
  | scalar (h : Scalar t x) : Value t x
  | raw (h : Lexeme.backTick ∉ s) :
    Value (Lexeme.backTick :: (s ++ [Lexeme.backTick])) (.string (String.ofList s))
  | list (h : Scalars t xs) : Value ('[' :: (t ++ [']'])) (.list xs)

/-- What follows an identifier: a value, or nothing, which means true. -/
inductive Assigned : List Char → Literal → Prop
  | bare : Assigned [] (.bool true)
  | value (h : Value t x) : Assigned ('=' :: t) x

/-- Spaces and tabs. -/
def IsIndent (s : List Char) : Prop := ∀ c ∈ s, c = ' ' ∨ c = '\t'

/-- A marker with its indentation, behind a text. The marker's place is that of its plus sign. -/
inductive Segment (before : List Char) : List Char → Marker → Prop
  | mk (hindent : IsIndent indent) (hname : Identifier.ofChars name = .ok m.identifier)
    (ht : Assigned t m.value) (hplace : m.position = .endOf (before ++ indent)) :
    Segment before (indent ++ '+' :: (name ++ t)) m

/-- Behind its indentation the text goes on with a plus sign and a lowercase letter. -/
def StartsMarker (text : List Char) : Prop :=
  ∃ indent c rest, IsIndent indent ∧ text = indent ++ '+' :: c :: rest ∧ c.isLower = true

/-- A line that does not start like a marker. -/
def IsProse (line : List Char) : Prop := '\n' ∉ line ∧ ¬StartsMarker line

/-- What ends the line of a marker. -/
def IsLineEnd (s : List Char) : Prop := s = ['\n'] ∨ s = ['\r', '\n']

/-- Lines behind a text, and the markers among them. -/
inductive Block : List Char → List Char → List Marker → Prop
  | prose (h : IsProse t) : Block before t []
  | proseLine (h : IsProse t) (H : Block (before ++ (t ++ ['\n'])) ts ms) :
    Block before (t ++ '\n' :: ts) ms
  | segment (h : Segment before t m) : Block before t [m]
  | segmentLine (h : Segment before t m) (he : IsLineEnd e) (H : Block (before ++ (t ++ e)) ts ms) :
    Block before (t ++ (e ++ ts)) (m :: ms)

theorem IsIndent.not_mem (h : IsIndent s) (h1 : c ≠ ' ') (h2 : c ≠ '\t') : c ∉ s := by
  intro hc
  rcases h c hc with rfl | rfl
  · exact h1 rfl
  · exact h2 rfl

theorem IsIndent.newline_not_mem (h : IsIndent s) : '\n' ∉ s := h.not_mem nofun nofun

theorem isIndent_nil : IsIndent [] := fun _ hc => absurd hc List.not_mem_nil

theorem IsIndent.isProse (h : IsIndent s) : IsProse s := by
  refine ⟨h.newline_not_mem, ?_⟩
  rintro ⟨indent, c, rest, -, rfl, -⟩
  have hplus : '+' ∉ indent ++ '+' :: c :: rest := h.not_mem nofun nofun
  exact hplus (List.mem_append_right _ List.mem_cons_self)

theorem StartsMarker.append (h : StartsMarker text) (more : List Char) :
    StartsMarker (text ++ more) := by
  obtain ⟨indent, c, rest, hindent, rfl, hc⟩ := h
  exact ⟨indent, c, rest ++ more, hindent, by simp, hc⟩

/-- Whether a line starts a marker does not depend on what ends it, nor on the lines behind it. -/
theorem StartsMarker.of_append (ha : a = '\n' ∨ a = '\r') (h : StartsMarker (text ++ a :: more)) :
    StartsMarker text := by
  obtain ⟨indent, c, rest, hindent, heq, hc⟩ := h
  rcases List.append_eq_append_iff.mp heq with ⟨s, rfl, hs⟩ | ⟨s, rfl, hs⟩
  · -- the line end would stand in the indentation
    cases s with
    | nil =>
      cases hs
      rcases ha with ha | ha <;> cases ha
    | cons b s =>
      cases hs
      have hmem : a ∈ text ++ a :: s := List.mem_append_right _ List.mem_cons_self
      rcases ha with rfl | rfl
      · exact absurd hmem (hindent.not_mem nofun nofun)
      · exact absurd hmem (hindent.not_mem nofun nofun)
  · match s, hs with
    | [], hs =>
      cases hs
      rcases ha with ha | ha <;> cases ha
    | [_], hs =>
      cases hs
      rcases ha with rfl | rfl <;> exact absurd hc (by decide)
    | _ :: b :: s, hs =>
      cases hs
      exact ⟨indent, c, s, hindent, rfl, hc⟩

/-- A text has one first line. -/
theorem append_newline_inj (hs : '\n' ∉ s) (ht : '\n' ∉ t)
    (h : s ++ '\n' :: more = t ++ '\n' :: more') : s = t ∧ more = more' := by
  induction s generalizing t with
  | nil =>
    cases t with
    | nil => exact ⟨rfl, (List.cons.inj h).2⟩
    | cons a t =>
      obtain ⟨rfl, -⟩ := List.cons.inj h
      exact absurd List.mem_cons_self ht
  | cons a s ih =>
    cases t with
    | nil =>
      obtain ⟨rfl, -⟩ := List.cons.inj h
      exact absurd List.mem_cons_self hs
    | cons b t =>
      obtain ⟨rfl, htail⟩ := List.cons.inj h
      obtain ⟨rfl, hmore⟩ :=
        ih (mt (List.mem_cons_of_mem _) hs) (mt (List.mem_cons_of_mem _) ht) htail
      exact ⟨rfl, hmore⟩

theorem IsProse.not_startsMarker (h : IsProse t) (more : List Char) :
    ¬StartsMarker (t ++ '\n' :: more) :=
  fun hm => h.2 (hm.of_append (.inl rfl))

theorem isProse_of_not_startsMarker (hn : '\n' ∉ t) (h : ¬StartsMarker (t ++ more)) : IsProse t :=
  ⟨hn, fun hm => h (hm.append more)⟩

end Grammar

end Markers
