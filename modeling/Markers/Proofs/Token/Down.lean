import Markers.Proofs.Grammar.Completeness

/-!
# Texts further down

A text that begins some lines further down has the same tokens, each as many lines further down:
scanning asks for places only to pass them on.
-/

namespace Markers

/-- The place some lines further down. -/
def Position.down (n : Nat) (p : Position) : Position := { p with line := p.line + n }

def Token.down (n : Nat) (t : Token) : Token := { t with position := t.position.down n }

def Marker.down (n : Nat) (m : Marker) : Marker := { m with position := m.position.down n }

def Cursor.down (n : Nat) (c : Cursor) : Cursor := { c with position := c.position.down n }

def Scan.down (n : Nat) (s : Scan) : Scan :=
  ⟨s.tokens.map (Token.down n), s.resume.map (Cursor.down n)⟩

def ParseError.down (n : Nat) : ParseError → ParseError
  | lexical m p => lexical m (p.down n)
  | unexpected expected found p => unexpected expected found (p.down n)
  | identifier cause p => identifier cause (p.down n)

variable {n : Nat}

namespace Position

theorem step_down (p : Position) (c : Char) : (p.down n).step c = (p.step c).down n := by
  unfold step
  split
  · simp [down, Nat.add_right_comm]
  · rfl

@[simp] theorem advance_down (p : Position) (s : List Char) :
    (p.down n).advance s = (p.advance s).down n := by
  induction s generalizing p with
  | nil => rfl
  | cons c s ih => rw [advance_cons, step_down, ih, advance_cons]

end Position

namespace Scan

@[simp] theorem down_ofToken (t : Token) : (ofToken t).down n = ofToken (t.down n) := rfl

@[simp] theorem down_ofFault (f : Fault) (p : Position) :
    (ofFault f p).down n = ofFault f (p.down n) := rfl

@[simp] theorem down_resumeAt (c : Cursor) : (resumeAt c).down n = resumeAt (c.down n) := rfl

@[simp] theorem down_cons (t : Token) (s : Scan) : (s.cons t).down n = (s.down n).cons (t.down n) :=
  rfl

end Scan

namespace Cursor

variable {c c' : Cursor} {last : Position}

@[simp] theorem rest_down (c : Cursor) : (c.down n).rest = c.rest := rfl

@[simp] theorem position_down (c : Cursor) : (c.down n).position = c.position.down n := rfl

@[simp] theorem behind_down (c : Cursor) (part rest : List Char) :
    (c.down n).behind part rest = (c.behind part rest).down n := by
  simp [behind, down]

@[simp] theorem token_down (c : Cursor) (k : Token.Kind) (part rest : List Char) :
    (c.down n).token k part rest =
      ((c.token k part rest).1.down n, (c.token k part rest).2.down n) := by
  simp [token, Token.down]

@[simp] theorem dropWhile_down (c : Cursor) (p : Char → Bool) :
    (c.down n).dropWhile p = (c.dropWhile p).down n := by
  simp [dropWhile]

@[simp] theorem nextLine_down (c : Cursor) : (c.down n).nextLine = c.nextLine.down n := by
  simp [nextLine]

/-! ### Scans -/

/-- A scalar further down, or its fault. -/
def downScalar (n : Nat) :
    Except (Fault × Position) (Token × Cursor) → Except (Fault × Position) (Token × Cursor)
  | .error (f, p) => .error (f, p.down n)
  | .ok (t, c) => .ok (t.down n, c.down n)

theorem scalar_down (c : Cursor) : (c.down n).scalar = downScalar n c.scalar := by
  unfold scalar
  rw [rest_down]
  split
  · rfl
  · rw [token_down]
    rfl

theorem scalarBehind_down (last : Position) (c : Cursor) :
    (c.down n).scalarBehind (last.down n) = downScalar n (c.scalarBehind last) := by
  unfold scalarBehind
  rw [rest_down]
  split
  · rfl
  · exact scalar_down c

theorem elementBehind_down (last : Position) (c : Cursor) :
    (c.down n).elementBehind (last.down n) = downScalar n (c.elementBehind last) := by
  unfold elementBehind
  rw [rest_down]
  split
  · rfl
  · exact scalar_down c

theorem afterValue_down (last : Position) (c : Cursor) :
    (c.down n).afterValue (last.down n) = (c.afterValue last).down n := by
  unfold afterValue
  rw [rest_down]
  split
  · rfl
  · rw [behind_down]
    rfl
  · rw [behind_down]
    rfl
  · rfl

theorem afterElements_down (last : Position) (c : Cursor) :
    (c.down n).afterElements (last.down n) = (c.afterElements last).down n := by
  unfold afterElements
  rw [rest_down]
  split
  · simp [afterValue_down]
  · simp
  all_goals rfl

theorem elements_down (last : Position) (c : Cursor) :
    (c.down n).elements (last.down n) = (c.elements last).down n := by
  fun_induction elements last c with
  | case1 last c f p h =>
    have helem := elementBehind_down (n := n) last c
    rw [h] at helem
    rw [elements_error helem, Scan.down_ofFault]
  | case2 last c t c' h cs hrest ih =>
    have helem := elementBehind_down (n := n) last c
    rw [h] at helem
    have hmoves : (c'.down n).Moves [',', ' '] ((c'.behind [',', ' '] cs).down n) :=
      ⟨hrest, (Position.advance_down ..).symm⟩
    rw [elements_comma helem hmoves, token_down, position_down, ih]
    rfl
  | case3 last c t c' h hne =>
    have helem := elementBehind_down (n := n) last c
    rw [h] at helem
    rw [elements_eq helem, rest_down]
    split
    · next hrest => exact absurd hrest (hne _)
    · rw [Token.down, afterElements_down]
      rfl

theorem value_down (last : Position) (c : Cursor) :
    (c.down n).value (last.down n) = (c.value last).down n := by
  unfold value
  rw [rest_down]
  split
  · simp [elements_down]
  · split
    · rfl
    · simp [afterValue_down]
  · have hscalar := scalarBehind_down (n := n) last c
    rw [hscalar]
    cases c.scalarBehind last with
    | error e => rfl
    | ok s =>
      obtain ⟨t, c'⟩ := s
      exact congrArg (Scan.cons (t.down n)) (afterValue_down t.position c')

theorem afterIdentifier_down (last : Position) (c : Cursor) :
    (c.down n).afterIdentifier (last.down n) = (c.afterIdentifier last).down n := by
  have hbare : (c.down n).bareMarker = c.bareMarker.down n := by
    simp [bareMarker, afterValue_down, Token.down]
  unfold afterIdentifier
  rw [rest_down]
  split
  · simp [value_down]
  · exact hbare
  · exact hbare
  · exact hbare
  · rfl

theorem marker_down (c : Cursor) : (c.down n).marker = c.marker.down n := by
  unfold marker
  rw [rest_down]
  split
  · rfl
  · simp [afterIdentifier_down]

theorem scan_down (c : Cursor) : (c.down n).scan = c.scan.down n := by
  simp only [scan, dropWhile_down, rest_down]
  split
  · rfl
  · split
    · simp [marker_down]
    · simp
  · simp

/-- The tokens of a text further down are those of the text, further down. -/
theorem tokens_down (c : Cursor) : (c.down n).tokens = c.tokens.map (Token.down n) :=
  tokens_map (P := fun _ => True) (fun c _ => scan_down c) (fun _ _ _ _ => trivial) c trivial

end Cursor

end Markers
