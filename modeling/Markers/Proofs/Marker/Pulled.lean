import Markers.Proofs.Marker.Read

/-!
# Parsing by pulls

A parser that pulls its tokens one by one comes to what the readers of token lists make of the
tokens of the stream. Between two tokens it stands inside one of these readers, and the rest of the
text is for the reader to finish (`Parser.reads`). A token takes it from one reader into another
(`Parser.reads_cons`), so the whole run is a reading of the whole stream
(`Marker.listOfStream_eq`).
-/

namespace Markers

variable {t : Token} {ts : List Token}

/-- The elements of a list that follow an element, and the tokens behind the closing bracket. -/
def Literal.behindElement : List Token → Except ParseError (List Literal × List Token)
  | [] => .error (Token.missing.unexpected .separator)
  | s :: ts =>
    if s.kind = .listClose then .ok ([], ts)
    else if s.kind = .comma then elementsOfTokens ts
    else .error (s.unexpected .separator)

theorem Literal.elementsOfTokens_cons : elementsOfTokens (t :: ts) =
    t.literal.bind fun x => (behindElement ts).map fun (xs, rest) => (x :: xs, rest) := by
  cases ts with
  | nil =>
    rw [elementsOfTokens]
    cases t.literal <;> rfl
  | cons s ts =>
    rw [elementsOfTokens, behindElement]
    cases t.literal with
    | error e => rfl
    | ok x =>
      dsimp only
      split
      · next hclose =>
        rw [if_pos hclose]
        rfl
      · next hcomma =>
        rw [if_neg (by simp [hcomma]), if_pos hcomma]
        cases elementsOfTokens ts <;> rfl
      · next hclose hcomma =>
        rw [if_neg hclose, if_neg hcomma]
        rfl

/-- The marker behind its identifier, and the tokens behind it. -/
def Marker.behindIdentifier (start : Position) (i : Identifier) :
    List Token → Except ParseError (Marker × List Token)
  | [] => .error (Token.missing.unexpected (.token .assign))
  | a :: ts =>
    if a.kind ≠ .assign then .error (a.unexpected (.token .assign))
    else (Literal.ofTokens ts).map fun (x, rest) => (⟨i, x, start⟩, rest)

theorem Marker.behindPlus_cons {start : Position} : behindPlus start (t :: ts) =
    if t.kind ≠ .identifier then .error (t.unexpected (.token .identifier))
    else match Identifier.parse t.text with
      | .error e => .error (.identifier e t.position)
      | .ok i => behindIdentifier start i ts := by
  rw [behindPlus]
  split
  · rfl
  · cases Identifier.parse t.text with
    | error e => rfl
    | ok i => cases ts <;> rfl

namespace Parser

/-- What the readers make of a text behind one of its markers. -/
def behind (p : Parser) (m : Marker) (ts : List Token) : Except ParseError (List Marker) :=
  (Marker.listOfTokens ts).map (p.markers ++ m :: ·)

/-- What the readers make of the rest of a text where the parser has come to. -/
def reads (p : Parser) (ts : List Token) : Except ParseError (List Marker) :=
  match p.state with
  | .marker => (Marker.listOfTokens ts).map (p.markers ++ ·)
  | .identifier start => (Marker.behindPlus start ts).bind fun (m, ts) => p.behind m ts
  | .assign start i => (Marker.behindIdentifier start i ts).bind fun (m, ts) => p.behind m ts
  | .value start i => (Literal.ofTokens ts).bind fun (x, ts) => p.behind ⟨i, x, start⟩ ts
  | .element start i xs =>
    (Literal.elementsOfTokens ts).bind fun (ys, ts) => p.behind ⟨i, .list (xs ++ ys), start⟩ ts
  | .separator start i xs =>
    (Literal.behindElement ts).bind fun (ys, ts) => p.behind ⟨i, .list (xs ++ ys), start⟩ ts

theorem reads_finish (p : Parser) (m : Marker) (ts : List Token) :
    (p.finish m).reads ts = p.behind m ts := by
  simp only [finish, reads, behind, List.append_assoc, List.singleton_append]

/-- The readers take a token as the parser does. -/
theorem reads_cons (p : Parser) (t : Token) (ts : List Token) :
    p.reads (t :: ts) = (p.step t).bind fun next => next.elim (.ok p.markers) (·.reads ts) := by
  obtain ⟨ms, state⟩ := p
  cases state with
  | marker =>
    simp only [reads, step]
    split
    · next h =>
      rw [Marker.listOfTokens_finish h]
      simp [Except.map, Except.bind]
    · next h =>
      rw [Marker.listOfTokens_plus h]
      simp only [Except.bind, Option.elim]
      cases Marker.behindPlus t.position ts with
      | error e => rfl
      | ok r =>
        simp only [behind]
        cases Marker.listOfTokens r.2 <;> rfl
    · next hfinish hplus =>
      rw [Marker.listOfTokens_misplaced hfinish hplus]
      rfl
  | identifier start =>
    simp only [reads, step, Marker.behindPlus_cons]
    split
    · rfl
    · cases Identifier.parse t.text <;> rfl
  | assign start i =>
    simp only [reads, step, Marker.behindIdentifier]
    split
    · rfl
    · simp only [Except.bind, Option.elim]
      cases Literal.ofTokens ts <;> rfl
  | value start i =>
    simp only [reads, step, Literal.ofTokens]
    split
    · simp only [Except.bind, Option.elim]
      cases Literal.elementsOfTokens ts <;> rfl
    · cases t.literal with
      | error e => rfl
      | ok x => exact (reads_finish _ _ ts).symm
  | element start i xs =>
    simp only [reads, step, Literal.elementsOfTokens_cons]
    cases t.literal with
    | error e => rfl
    | ok x =>
      simp only [Except.bind, Except.map, Option.elim]
      cases Literal.behindElement ts with
      | error e => rfl
      | ok r => simp only [List.append_assoc, List.singleton_append, behind]
  | separator start i xs =>
    simp only [reads, step, Literal.behindElement]
    split
    · next hclose =>
      rw [hclose]
      simp only [Except.bind, Option.elim, List.append_nil]
      exact (reads_finish _ _ ts).symm
    · next hclose =>
      split
      · next hcomma =>
        rw [hcomma]
        rfl
      · next hcomma =>
        split
        · contradiction
        · contradiction
        · rfl

theorem reads_nil (p : Parser) :
    p.reads [] = (p.step .missing).bind fun next => next.elim (.ok p.markers) (·.reads []) := by
  obtain ⟨ms, state⟩ := p
  cases state with
  | marker =>
    simp only [reads, Marker.listOfTokens, Except.map, List.append_nil]
    rfl
  | _ => rfl

/-- The readers take the next token of a stream as the parser does. -/
theorem reads_next (p : Parser) (s : TokenStream) :
    p.reads s.toList = (p.step (s.next.1.getD .missing)).bind fun next =>
      next.elim (.ok p.markers) (·.reads s.next.2.toList) := by
  obtain ⟨hhead, htail⟩ := s.next_eq
  rw [hhead, htail]
  cases s.toList with
  | nil => exact p.reads_nil
  | cons t ts => exact p.reads_cons t ts

/-- A parser reads what is left of its stream. -/
theorem run_eq_reads (p : Parser) (s : TokenStream) : p.run s = p.reads s.toList := by
  fun_induction run p s with
  | case1 p s e h =>
    rw [reads_next, h]
    rfl
  | case2 p s h =>
    rw [reads_next, h]
    rfl
  | case3 p s p' h ih =>
    rw [reads_next, h]
    exact ih

end Parser

namespace Marker

theorem listOfStream_eq (s : TokenStream) : listOfStream s = listOfTokens s.toList := by
  rw [listOfStream, Parser.run_eq_reads]
  simp only [Parser.reads, Parser.start, List.nil_append]
  cases listOfTokens s.toList <;> rfl

/-- It makes no difference whether the tokens of a text are listed before they are read, or pulled
while they are read. -/
theorem parse_eq_listOfStream (text : String) : parse text = listOfStream (.ofString text) :=
  (listOfStream_eq (.ofString text)).symm

end Marker

end Markers
