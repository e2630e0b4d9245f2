import Markers.Token
import Markers.Token.Fault

/-!
# Lexemes

Each function here splits one lexeme off the front of a text: it gives the lexeme's characters and
what follows them.
-/

namespace Markers

/-! ### Results that may be errors -/

theorem map_eq_ok_iff {x : Except ε α} {f : α → β} {b : β} :
    x.map f = .ok b ↔ ∃ a, x = .ok a ∧ f a = b := by
  cases x <;> simp [Except.map]

theorem map_eq_error_iff {x : Except ε α} {f : α → β} {e : ε} :
    x.map f = .error e ↔ x = .error e := by
  cases x <;> simp [Except.map]

/-! ### Splitting -/

namespace Lexeme

/-- The back-tick, which opens and closes a text that may span lines. -/
def backTick : Char := '\x60'

/-- Splits behind the next back-tick. -/
def splitRaw : List Char → Option (List Char × List Char)
  | [] => none
  | c :: cs =>
    if c = backTick then some ([c], cs)
    else (splitRaw cs).map fun (part, rest) => (c :: part, rest)

/-- Splits behind the next double quote that no backslash escapes. There is none where the line ends
first, be it behind a backslash. -/
def splitQuoted : List Char → Option (List Char × List Char)
  | [] => none
  | '\\' :: c :: cs =>
    if c = '\n' then none
    else (splitQuoted cs).map fun (part, rest) => ('\\' :: c :: part, rest)
  | c :: cs =>
    if c = '\n' then none
    else if c = '"' then some ([c], cs)
    else (splitQuoted cs).map fun (part, rest) => (c :: part, rest)

/-- Does the character belong to a bare word? -/
def isWordChar (c : Char) : Bool := c.isAlphanum || c = '_'

/-- Does the character belong to a number as far as its extent goes? -/
def isNumberChar (c : Char) : Bool := !isBlank c && c != ',' && c != ']'

/-- Does the character belong to an identifier as far as its extent goes? -/
def isIdentifierChar (c : Char) : Bool := Identifier.isSegmentChar c || c = ':'

/-- Does the character start a number? -/
def startsNumber (c : Char) : Bool := c.isDigit || c = '-' || c = '+' || c = '.'

/-- A quoted string, which starts with the quote that opens it. -/
def quoted : List Char → Except Fault (List Char × List Char)
  | [] => .error .unterminatedString
  | c :: cs =>
    match splitQuoted cs with
    | none => .error .unterminatedString
    | some (part, rest) =>
      match Quoted.ofChars (c :: part) with
      | .error e => .error (.quoted e)
      | .ok _ => .ok (c :: part, rest)

/-- A back-tick text, which starts with the back-tick that opens it. -/
def raw : List Char → Except Fault (List Char × List Char)
  | [] => .error .unterminatedRaw
  | c :: cs =>
    match splitRaw cs with
    | none => .error .unterminatedRaw
    | some (part, rest) => .ok (c :: part, rest)

/-- The word `true` or `false`. -/
def bool (cs : List Char) : Except Fault (List Char × List Char) :=
  let part := cs.takeWhile isWordChar
  if part = "true".toList ∨ part = "false".toList then .ok (part, cs.dropWhile isWordChar)
  else .error (.word (String.ofList part))

def numberKind : Number → Token.Kind
  | .int _ => .int
  | .float _ => .float
  | .complex _ _ => .complex

/-- A number, with the kind that it has. -/
def number (cs : List Char) : Except Fault (Token.Kind × List Char × List Char) :=
  match Number.ofChars (cs.takeWhile isNumberChar) with
  | .error e => .error (.number e)
  | .ok n => .ok (numberKind n, cs.takeWhile isNumberChar, cs.dropWhile isNumberChar)

/-- An identifier. -/
def identifier (cs : List Char) : Except Fault (List Char × List Char) :=
  match Identifier.ofChars (cs.takeWhile isIdentifierChar) with
  | .error e => .error (.identifier e)
  | .ok _ => .ok (cs.takeWhile isIdentifierChar, cs.dropWhile isIdentifierChar)

/-- Why a text does not start like a scalar, if it does not. -/
def scalarStart? : List Char → Option Fault
  | [] => some .missingValue
  | c :: _ =>
    if c = '"' ∨ c = 't' ∨ c = 'f' ∨ startsNumber c = true then none
    else if c = '\n' ∨ c = '\r' then some .missingValue
    else some (.valueStart c)

/-- Why a text does not start like an element of a list, if it does not. -/
def elementStart? : List Char → Option Fault
  | [] => some .missingValue
  | c :: cs =>
    if c = ' ' ∨ c = '\t' then some .blankBeforeElement
    else if c = ']' then some .missingElement
    else if c = '[' then some .nestedList
    else if c = backTick then some .rawElement
    else scalarStart? (c :: cs)

/-- A string, a bool or a number, told apart by the first character. -/
def scalar (cs : List Char) : Except Fault (Token.Kind × List Char × List Char) :=
  if cs.head? = some '"' then (quoted cs).map fun l => (.string, l)
  else if cs.head? = some 't' ∨ cs.head? = some 'f' then (bool cs).map fun l => (.bool, l)
  else number cs

/-! ### Lexemes are cut off the front -/

theorem append_of_splitRaw {cs part rest : List Char} (h : splitRaw cs = some (part, rest)) :
    part ++ rest = cs := by
  fun_induction splitRaw cs generalizing part with
  | case1 => cases h
  | case2 => cases h; rfl
  | case3 _ _ _ ih =>
    obtain ⟨⟨p, r⟩, hp, heq⟩ := Option.map_eq_some_iff.mp h
    cases heq
    simp [ih hp]

theorem append_of_splitQuoted {cs part rest : List Char} (h : splitQuoted cs = some (part, rest)) :
    part ++ rest = cs := by
  fun_induction splitQuoted cs generalizing part with
  | case1 | case2 | case4 => cases h
  | case5 => cases h; rfl
  | case3 _ _ _ ih | case6 _ _ _ _ _ ih =>
    obtain ⟨⟨p, r⟩, hp, heq⟩ := Option.map_eq_some_iff.mp h
    cases heq
    simp [ih hp]

theorem append_of_quoted {cs part rest : List Char} (h : quoted cs = .ok (part, rest)) :
    part ++ rest = cs ∧ part ≠ [] := by
  unfold quoted at h
  split at h
  · cases h
  · split at h
    · cases h
    · next hsplit =>
      split at h <;> cases h
      simp [append_of_splitQuoted hsplit]

theorem append_of_raw {cs part rest : List Char} (h : raw cs = .ok (part, rest)) :
    part ++ rest = cs ∧ part ≠ [] := by
  unfold raw at h
  split at h
  · cases h
  · split at h <;> cases h
    next hsplit => simp [append_of_splitRaw hsplit]

theorem append_of_bool {cs part rest : List Char} (h : bool cs = .ok (part, rest)) :
    part ++ rest = cs ∧ part ≠ [] := by
  simp only [bool] at h
  split at h <;> cases h
  next hword =>
    refine ⟨List.takeWhile_append_dropWhile, fun hnil => ?_⟩
    simp [hnil] at hword

theorem append_of_number {cs part rest : List Char} {k : Token.Kind}
    (h : number cs = .ok (k, part, rest)) : part ++ rest = cs ∧ part ≠ [] := by
  unfold number at h
  split at h <;> cases h
  next n hn =>
    refine ⟨List.takeWhile_append_dropWhile, fun hnil => ?_⟩
    rw [hnil] at hn
    cases hn

theorem append_of_identifier {cs part rest : List Char} (h : identifier cs = .ok (part, rest)) :
    part ++ rest = cs ∧ part ≠ [] := by
  unfold identifier at h
  split at h <;> cases h
  next i hi =>
    refine ⟨List.takeWhile_append_dropWhile, fun hnil => ?_⟩
    rw [hnil] at hi
    cases hi

theorem append_of_scalar {cs part rest : List Char} {k : Token.Kind}
    (h : scalar cs = .ok (k, part, rest)) : part ++ rest = cs ∧ part ≠ [] := by
  unfold scalar at h
  split at h
  · obtain ⟨l, hq, heq⟩ := map_eq_ok_iff.mp h
    cases heq
    exact append_of_quoted hq
  · split at h
    · obtain ⟨l, hb, heq⟩ := map_eq_ok_iff.mp h
      cases heq
      exact append_of_bool hb
    · exact append_of_number h

end Lexeme

end Markers
