import Markers.Token.Lexeme

/-!
# Scanning

A text is scanned one stretch at a time: a line of prose, or a marker with the line end behind it. A
back-tick text may carry a marker over several lines. Scanning stops at the first fault, which takes
the place of the latest token, or of the lexeme that holds it.
-/

namespace Markers

/-- What a stretch of text yields: its tokens, and where scanning resumes unless it is over. -/
structure Scan where
  tokens : List Token
  resume : Option Cursor
  deriving DecidableEq, Repr

namespace Scan

def ofToken (t : Token) : Scan := ⟨[t], none⟩

def ofFault (f : Fault) (p : Position) : Scan := ofToken ⟨.fault, f.message, p⟩

def resumeAt (c : Cursor) : Scan := ⟨[], some c⟩

def cons (t : Token) (s : Scan) : Scan := ⟨t :: s.tokens, s.resume⟩

@[simp] theorem resume_cons (t : Token) (s : Scan) : (s.cons t).resume = s.resume := rfl

end Scan

namespace Cursor

/-- The scalar at the cursor, with the cursor behind it. -/
def scalar (c : Cursor) : Except (Fault × Position) (Token × Cursor) :=
  match Lexeme.scalar c.rest with
  | .error f => .error (f, c.position)
  | .ok (k, part, rest) => .ok (c.token k part rest)

/-- The scalar at the cursor. Where none starts, the fault lies with the token before, at `last`. -/
def scalarBehind (last : Position) (c : Cursor) : Except (Fault × Position) (Token × Cursor) :=
  match Lexeme.scalarStart? c.rest with
  | some f => .error (f, last)
  | none => c.scalar

/-- The list element at the cursor, in the same way. -/
def elementBehind (last : Position) (c : Cursor) : Except (Fault × Position) (Token × Cursor) :=
  match Lexeme.elementStart? c.rest with
  | some f => .error (f, last)
  | none => c.scalar

theorem length_scalar_lt {c c' : Cursor} {t : Token} (h : c.scalar = .ok (t, c')) :
    c'.rest.length < c.rest.length := by
  unfold scalar at h
  split at h <;> cases h
  next hs =>
    obtain ⟨heq, hne⟩ := Lexeme.append_of_scalar hs
    have := List.length_pos_iff.mpr hne
    simp only [behind, ← heq, List.length_append]
    omega

theorem length_scalarBehind_lt {last : Position} {c c' : Cursor} {t : Token}
    (h : c.scalarBehind last = .ok (t, c')) : c'.rest.length < c.rest.length := by
  unfold scalarBehind at h
  split at h
  · cases h
  · exact length_scalar_lt h

theorem length_elementBehind_lt {last : Position} {c c' : Cursor} {t : Token}
    (h : c.elementBehind last = .ok (t, c')) : c'.rest.length < c.rest.length := by
  unfold elementBehind at h
  split at h
  · cases h
  · exact length_scalar_lt h

/-- Only the end of the line or of the text may follow a value, whose last token is at `last`. -/
def afterValue (last : Position) (c : Cursor) : Scan :=
  match c.rest with
  | [] => .ofToken (.finish c.position)
  | '\n' :: cs => .resumeAt (c.behind ['\n'] cs)
  | '\r' :: '\n' :: cs => .resumeAt (c.behind ['\r', '\n'] cs)
  | ch :: _ => .ofFault (.afterValue ch) last

/-- What follows the last element of a list, which is at `last`: the closing bracket and the end of
the line. -/
def afterElements (last : Position) (c : Cursor) : Scan :=
  match c.rest with
  | ']' :: cs =>
    let (close, c') := c.token .listClose [']'] cs
    .cons close <| c'.afterValue c.position
  | ',' :: cs => .cons (c.token .comma [','] cs).1 <| .ofFault .commaSpace c.position
  | ' ' :: _ | '\t' :: _ => .ofFault .blankAfterElement last
  | [] | '\n' :: _ | '\r' :: _ => .ofFault .unterminatedList last
  | ch :: _ => .ofFault (.inList ch) last

/-- The elements of a list and what follows them. The token before, an opening bracket or a comma,
is at `last`. -/
def elements (last : Position) (c : Cursor) : Scan :=
  match _h : c.elementBehind last with
  | .error (f, p) => .ofFault f p
  | .ok (t, c') =>
    match _hc : c'.rest with
    | ',' :: ' ' :: cs =>
      .cons t <| .cons (c'.token .comma [','] (' ' :: cs)).1 <|
        (c'.behind [',', ' '] cs).elements c'.position
    | _ => .cons t <| c'.afterElements t.position
termination_by c.rest.length
decreasing_by
  have := length_elementBehind_lt ‹_›
  simp only [_hc, List.length_cons] at this
  simp only [behind]
  omega

/-- A value and what follows it. The assignment before it is at `last`. -/
def value (last : Position) (c : Cursor) : Scan :=
  match c.rest with
  | '[' :: cs =>
    let (opening, c') := c.token .listOpen ['['] cs
    .cons opening <| c'.elements c.position
  | '\x60' :: _ =>
    match Lexeme.raw c.rest with
    | .error f => .ofFault f c.position
    | .ok (part, rest) =>
      let (t, c') := c.token .string part rest
      .cons t <| c'.afterValue c.position
  | _ =>
    match c.scalarBehind last with
    | .error (f, p) => .ofFault f p
    | .ok (t, c') => .cons t <| c'.afterValue t.position

/-- What follows a bare identifier: the marker is true. -/
def bareMarker (c : Cursor) : Scan :=
  .cons ⟨.assign, "=", c.position⟩ <| .cons ⟨.bool, "true", c.position⟩ <| c.afterValue c.position

/-- What follows the identifier at `last`. -/
def afterIdentifier (last : Position) (c : Cursor) : Scan :=
  match c.rest with
  | '=' :: cs =>
    let (assign, c') := c.token .assign ['='] cs
    .cons assign <| c'.value c.position
  | [] | '\n' :: _ | '\r' :: '\n' :: _ => c.bareMarker
  | ch :: _ => .ofFault (.afterIdentifier ch) last

/-- A marker behind its plus sign. -/
def marker (c : Cursor) : Scan :=
  match Lexeme.identifier c.rest with
  | .error f => .ofFault f c.position
  | .ok (part, rest) =>
    let (t, c') := c.token .identifier part rest
    .cons t <| c'.afterIdentifier c.position

/-- Is the character a space or a tab? Marker lines may be indented with these. -/
def isIndent (c : Char) : Bool := c = ' ' || c = '\t'

/-- The stretch at the beginning of a line: a marker if the line starts with a plus sign and a
lowercase letter, else prose. -/
def scan (c : Cursor) : Scan :=
  let c := c.dropWhile isIndent
  match c.rest with
  | [] => .ofToken (.finish c.position)
  | '+' :: l :: cs =>
    if l.isLower then
      let (plus, c') := c.token .plus ['+'] (l :: cs)
      .cons plus c'.marker
    else .resumeAt c.nextLine
  | _ => .resumeAt c.nextLine

/-! ### Scanning resumes further on -/

theorem length_resume_afterValue {last : Position} {c c' : Cursor}
    (h : (c.afterValue last).resume = some c') : c'.rest.length < c.rest.length := by
  unfold afterValue at h
  split at h <;> cases h
  · next hc =>
    simp only [behind, hc, List.length_cons]
    omega
  · next hc =>
    simp only [behind, hc, List.length_cons]
    omega

theorem length_resume_afterElements {last : Position} {c c' : Cursor}
    (h : (c.afterElements last).resume = some c') : c'.rest.length < c.rest.length := by
  unfold afterElements at h
  split at h
  · next hc =>
    have := length_resume_afterValue h
    simp only [behind] at this
    simp only [hc, List.length_cons]
    omega
  all_goals cases h

theorem length_resume_elements {last : Position} {c c' : Cursor}
    (h : (c.elements last).resume = some c') : c'.rest.length < c.rest.length := by
  fun_induction elements last c with
  | case1 => cases h
  | case2 _ _ _ _ helem _ hc ih =>
    have := length_elementBehind_lt helem
    have := ih h
    simp only [hc, behind, List.length_cons] at *
    omega
  | case3 _ _ _ _ helem =>
    have := length_elementBehind_lt helem
    have := length_resume_afterElements h
    omega

theorem length_resume_value {last : Position} {c c' : Cursor}
    (h : (c.value last).resume = some c') : c'.rest.length < c.rest.length := by
  unfold value at h
  split at h
  · next hc =>
    have := length_resume_elements h
    simp only [behind] at this
    simp only [hc, List.length_cons]
    omega
  · split at h
    · cases h
    · next hraw =>
      obtain ⟨heq, -⟩ := Lexeme.append_of_raw hraw
      have := length_resume_afterValue h
      simp only [behind] at this
      rw [← heq, List.length_append]
      omega
  · split at h
    · cases h
    · next hs =>
      have := length_scalarBehind_lt hs
      have := length_resume_afterValue h
      omega

theorem length_resume_afterIdentifier {last : Position} {c c' : Cursor}
    (h : (c.afterIdentifier last).resume = some c') : c'.rest.length < c.rest.length := by
  unfold afterIdentifier at h
  split at h
  · next hc =>
    have := length_resume_value h
    simp only [behind] at this
    simp only [hc, List.length_cons]
    omega
  · exact length_resume_afterValue h
  · exact length_resume_afterValue h
  · exact length_resume_afterValue h
  · cases h

theorem length_resume_marker {c c' : Cursor} (h : c.marker.resume = some c') :
    c'.rest.length < c.rest.length := by
  unfold marker at h
  split at h
  · cases h
  · next hid =>
    obtain ⟨heq, -⟩ := Lexeme.append_of_identifier hid
    have := length_resume_afterIdentifier h
    simp only [behind] at this
    rw [← heq, List.length_append]
    omega

theorem length_resume_scan {c c' : Cursor} (h : c.scan.resume = some c') :
    c'.rest.length < c.rest.length := by
  have hindent := c.length_dropWhile_le isIndent
  simp only [scan] at h
  split at h
  · cases h
  · next hc =>
    split at h
    · have := length_resume_marker h
      simp only [token, behind] at this
      simp only [hc, List.length_cons] at *
      omega
    · cases h
      have := length_nextLine_lt (c.dropWhile isIndent) (by simp [hc])
      omega
  · next hc _ =>
    cases h
    have := length_nextLine_lt (c.dropWhile isIndent) hc
    omega

end Cursor

end Markers
