import Markers.Literal
import Markers.Token.Stream

/-!
# Markers

A marker is one occurrence of an option in a text. A text is parsed as a whole: the first fault
fails it, and no marker is given.
-/

namespace Markers

/-- One occurrence of an option; the position is that of its plus sign. -/
structure Marker where
  identifier : Identifier
  value : Literal
  position : Position

namespace Marker

def kind (m : Marker) : Literal.Kind := m.value.kind

/-- The same occurrence with another value. -/
def withValue (m : Marker) (x : Literal) : Marker := { m with value := x }

end Marker

/-- What was expected in place of a token. -/
inductive Expectation where
  | markerOrEnd
  | token (kind : Token.Kind)
  | value
  | separator
  deriving DecidableEq, Repr

instance : ToString Expectation where
  toString
    | .markerOrEnd => "'+' or end of input"
    | .token k => toString k
    | .value => "a value"
    | .separator => "',' or ']'"

/-- Why a text does not parse. -/
inductive ParseError where
  | lexical (message : String) (position : Position)
  | unexpected (expected : Expectation) (found : Token.Kind) (position : Position)
  | identifier (cause : Identifier.Error) (position : Position)
  deriving DecidableEq, Repr

namespace ParseError

def position : ParseError → Position
  | lexical _ p | unexpected _ _ p | identifier _ p => p

/-- Is the error one of the characters, and not of the order of tokens? -/
def isLexical : ParseError → Bool
  | lexical _ _ => true
  | unexpected _ _ _ | identifier _ _ => false

def message : ParseError → String
  | lexical m p => s!"lexical error at {p}: {m}"
  | unexpected expected found p => s!"syntax error at {p}: expected {expected}, found {found}"
  | identifier cause p => s!"syntax error at {p}: {cause.message}"

end ParseError

namespace Token

/-- The error of a token that stands in place of something else. A fault speaks for itself. -/
def unexpected (t : Token) (expected : Expectation) : ParseError :=
  if t.kind = .fault then .lexical t.text t.position
  else .unexpected expected t.kind t.position

/-- Stands for the token behind the last one. -/
def missing : Token := .finish .outside

/-- The text of a string token: a back-tick text stands for itself. -/
def string (t : Token) : Except Quoted.Error String :=
  match t.text.toList with
  | '\x60' :: cs =>
    if cs.getLast? = some '\x60' then .ok (String.ofList cs.dropLast) else Quoted.unquote t.text
  | _ => Quoted.unquote t.text

/-- The literal of a scalar token. -/
def literal (t : Token) : Except ParseError Literal :=
  let faulty (message : String) : ParseError := .lexical message t.position
  match t.kind with
  | .bool =>
    if t.text = "true" then .ok (.bool true)
    else if t.text = "false" then .ok (.bool false)
    else .error (faulty s!"invalid bool '{t.text}'")
  | .string =>
    match t.string with
    | .error e => .error (faulty e.message)
    | .ok s => .ok (.string s)
  | .int | .float | .complex =>
    match Number.classify t.text with
    | .error e => .error (faulty e.message)
    | .ok n => .ok n.toLiteral
  | _ => .error (t.unexpected .value)

end Token

namespace Literal

/-- The elements of a list behind its opening bracket, and the tokens behind the closing one. -/
def elementsOfTokens : List Token → Except ParseError (List Literal × List Token)
  | [] => .error (Token.missing.unexpected .value)
  | [t] =>
    match t.literal with
    | .error e => .error e
    | .ok _ => .error (Token.missing.unexpected .separator)
  | t :: s :: ts =>
    match t.literal with
    | .error e => .error e
    | .ok x =>
      match s.kind with
      | .listClose => .ok ([x], ts)
      | .comma =>
        match elementsOfTokens ts with
        | .error e => .error e
        | .ok (xs, rest) => .ok (x :: xs, rest)
      | _ => .error (s.unexpected .separator)

/-- The value at the front of the tokens, and the tokens behind it. -/
def ofTokens : List Token → Except ParseError (Literal × List Token)
  | [] => .error (Token.missing.unexpected .value)
  | t :: ts =>
    if t.kind = .listOpen then (elementsOfTokens ts).map fun (xs, rest) => (.list xs, rest)
    else t.literal.map fun x => (x, ts)

theorem length_elementsOfTokens_le {ts rest : List Token} {xs : List Literal}
    (h : elementsOfTokens ts = .ok (xs, rest)) : rest.length ≤ ts.length := by
  fun_induction elementsOfTokens ts generalizing xs with
  | case4 => cases h
  | case5 =>
    cases h
    simp only [List.length_cons]
    omega
  | case6 => cases h
  | case7 _ _ _ _ _ _ _ _ hts ih =>
    cases h
    have := ih hts
    simp only [List.length_cons]
    omega
  | _ => cases h

theorem length_ofTokens_le {ts rest : List Token} {x : Literal}
    (h : ofTokens ts = .ok (x, rest)) : rest.length ≤ ts.length := by
  unfold ofTokens at h
  split at h
  · cases h
  · simp only [List.length_cons]
    split at h
    · obtain ⟨⟨xs, r⟩, he, heq⟩ := map_eq_ok_iff.mp h
      cases heq
      have := length_elementsOfTokens_le he
      omega
    · obtain ⟨y, -, heq⟩ := map_eq_ok_iff.mp h
      cases heq
      omega

end Literal

namespace Marker

/-- The marker behind a plus sign at `start`, and the tokens behind it. -/
def behindPlus (start : Position) : List Token → Except ParseError (Marker × List Token)
  | [] => .error (Token.missing.unexpected (.token .identifier))
  | i :: ts =>
    if i.kind ≠ .identifier then .error (i.unexpected (.token .identifier))
    else match Identifier.parse i.text with
      | .error e => .error (.identifier e i.position)
      | .ok identifier =>
        match ts with
        | [] => .error (Token.missing.unexpected (.token .assign))
        | a :: ts =>
          if a.kind ≠ .assign then .error (a.unexpected (.token .assign))
          else (Literal.ofTokens ts).map fun (x, rest) => (⟨identifier, x, start⟩, rest)

theorem length_behindPlus_le {start : Position} {ts rest : List Token} {m : Marker}
    (h : behindPlus start ts = .ok (m, rest)) : rest.length ≤ ts.length := by
  unfold behindPlus at h
  split at h
  · cases h
  · split at h
    · cases h
    · split at h
      · cases h
      · split at h
        · cases h
        · next ts =>
          split at h
          · cases h
          · obtain ⟨⟨x, r⟩, hv, heq⟩ := map_eq_ok_iff.mp h
            cases heq
            have := Literal.length_ofTokens_le hv
            simp only [List.length_cons]
            omega

/-- The markers of a text's tokens, or the first thing that is wrong with them. -/
def listOfTokens : List Token → Except ParseError (List Marker)
  | [] => .ok []
  | t :: ts =>
    match t.kind with
    | .finish => .ok []
    | .plus =>
      match _h : behindPlus t.position ts with
      | .error e => .error e
      | .ok (m, rest) => (listOfTokens rest).map (m :: ·)
    | _ => .error (t.unexpected .markerOrEnd)
termination_by ts => ts.length
decreasing_by
  have := length_behindPlus_le ‹_›
  simp only [List.length_cons]
  omega

/-- The markers of a text. -/
def parse (text : String) : Except ParseError (List Marker) :=
  listOfTokens (tokenize text)

end Marker

/-! ### Pulling -/

/-- What comes next in the tokens of a text, and what has been read of the marker that is open. -/
inductive Parser.State where
  | marker
  | identifier (start : Position)
  | assign (start : Position) (identifier : Identifier)
  | value (start : Position) (identifier : Identifier)
  | element (start : Position) (identifier : Identifier) (elements : List Literal)
  | separator (start : Position) (identifier : Identifier) (elements : List Literal)

/-- A parser pulls tokens one by one. It keeps the markers that it has finished. -/
structure Parser where
  markers : List Marker
  state : Parser.State

namespace Parser

def start : Parser := ⟨[], .marker⟩

def finish (p : Parser) (m : Marker) : Parser := ⟨p.markers ++ [m], .marker⟩

/-- The parser behind a token, unless the token ends the text. -/
def step (p : Parser) (t : Token) : Except ParseError (Option Parser) :=
  match p.state with
  | .marker =>
    match t.kind with
    | .finish => .ok none
    | .plus => .ok (some ⟨p.markers, .identifier t.position⟩)
    | _ => .error (t.unexpected .markerOrEnd)
  | .identifier start =>
    if t.kind ≠ .identifier then .error (t.unexpected (.token .identifier))
    else match Identifier.parse t.text with
      | .error e => .error (.identifier e t.position)
      | .ok i => .ok (some ⟨p.markers, .assign start i⟩)
  | .assign start i =>
    if t.kind ≠ .assign then .error (t.unexpected (.token .assign))
    else .ok (some ⟨p.markers, .value start i⟩)
  | .value start i =>
    if t.kind = .listOpen then .ok (some ⟨p.markers, .element start i []⟩)
    else t.literal.map fun x => some (p.finish ⟨i, x, start⟩)
  | .element start i xs =>
    t.literal.map fun x => some ⟨p.markers, .separator start i (xs ++ [x])⟩
  | .separator start i xs =>
    match t.kind with
    | .comma => .ok (some ⟨p.markers, .element start i xs⟩)
    | .listClose => .ok (some (p.finish ⟨i, .list xs, start⟩))
    | _ => .error (t.unexpected .separator)

/-- Behind the end of a text there is nothing. -/
theorem step_missing (p p' : Parser) : p.step .missing ≠ .ok (some p') := by
  obtain ⟨ms, state⟩ := p
  cases state <;> exact nofun

/-- Pulls the rest of the tokens, up to the first that is out of place. -/
def run (p : Parser) (s : TokenStream) : Except ParseError (List Marker) :=
  match _h : p.step (s.next.1.getD .missing) with
  | .error e => .error e
  | .ok none => .ok p.markers
  | .ok (some p') => p'.run s.next.2
termination_by s.toList.length
decreasing_by
  cases ht : s.next.1 with
  | none =>
    rw [ht] at _h
    exact absurd _h (step_missing p p')
  | some t => exact TokenStream.length_next_lt ht

end Parser

/-- The markers that are left in a token stream. -/
def Marker.listOfStream (s : TokenStream) : Except ParseError (List Marker) :=
  Parser.start.run s

end Markers
