import Markers.Text

/-!
# Quoted text

A text between double quotes, in which a backslash starts an escape.
-/

namespace Markers.Quoted

/-- Why a text is no quoted text. -/
inductive Error where
  | notQuoted (text : String)
  | bareQuote
  | lineFeed
  | loneBackslash
  | hexDigits (count : Nat)
  | octalDigits
  | octalRange (code : Nat)
  | notScalar (code : Nat)
  | unknownEscape (character : Char)
  deriving DecidableEq, Repr

def Error.message : Error → String
  | notQuoted text => s!"string literal {text} is not double-quoted"
  | bareQuote => "unescaped '\"' inside string literal"
  | lineFeed => "newline inside string literal"
  | loneBackslash => "string literal ends with a lone backslash"
  | hexDigits n => s!"escape needs {n} hex digits"
  | octalDigits => "octal escape needs three digits"
  | octalRange n => s!"octal escape value {n} exceeds 255"
  | notScalar n =>
    "escape \\u\x7b" ++ String.ofList (Nat.toDigits 16 n) ++ "\x7d is not a valid code point"
  | unknownEscape c => s!"invalid escape sequence '\\{c}'"

/-- The characters that a backslash and one letter stand for. -/
def letterEscape? : Char → Option Char
  | 'a' => some '\x07'
  | 'b' => some '\x08'
  | 'f' => some '\x0c'
  | 'n' => some '\n'
  | 'r' => some '\r'
  | 't' => some '\t'
  | 'v' => some '\x0b'
  | '\\' => some '\\'
  | '"' => some '"'
  | _ => none

/-- Reads exactly `count` digits: their number, and what follows them. -/
def code? (base count : Nat) (cs : List Char) : Option (Nat × List Char) :=
  if cs.length < count then none
  else ((cs.take count).mapM (digit? base)).map fun ds => (ofDigits base ds, cs.drop count)

/-- Reads a code point of exactly `count` hexadecimal digits. -/
def hexEscape (count : Nat) (cs : List Char) : Except Error (Char × List Char) :=
  match code? 16 count cs with
  | none => .error (.hexDigits count)
  | some (code, rest) =>
    match scalarValue? code with
    | none => .error (.notScalar code)
    | some c => .ok (c, rest)

/-- Reads a code point of exactly three octal digits, which is at most 255. -/
def octalEscape (cs : List Char) : Except Error (Char × List Char) :=
  match code? 8 3 cs with
  | none => .error .octalDigits
  | some (code, rest) =>
    if code ≤ 255 then .ok (Char.ofNat code, rest) else .error (.octalRange code)

/-- Reads an escape behind its backslash: the character it stands for, and what follows it. -/
def escape : List Char → Except Error (Char × List Char)
  | [] => .error .loneBackslash
  | c :: cs =>
    match letterEscape? c with
    | some d => .ok (d, cs)
    | none =>
      if c = 'x' then hexEscape 2 cs
      else if c = 'u' then hexEscape 4 cs
      else if c = 'U' then hexEscape 8 cs
      else if (digit? 8 c).isSome then octalEscape (c :: cs)
      else .error (.unknownEscape c)

theorem length_of_code? {base count : Nat} {cs rest : List Char} {code : Nat}
    (h : code? base count cs = some (code, rest)) : rest.length + count = cs.length := by
  simp only [code?, Option.ite_none_left_eq_some, Option.map_eq_some_iff, Prod.mk.injEq] at h
  obtain ⟨hle, ds, -, -, rfl⟩ := h
  simp only [List.length_drop]
  omega

theorem length_hexEscape {count : Nat} {cs rest : List Char} {c : Char}
    (h : hexEscape count cs = .ok (c, rest)) : rest.length + count = cs.length := by
  unfold hexEscape at h
  split at h
  · cases h
  · next hcode =>
    split at h <;> cases h
    exact length_of_code? hcode

theorem length_octalEscape {cs rest : List Char} {c : Char}
    (h : octalEscape cs = .ok (c, rest)) : rest.length + 3 = cs.length := by
  unfold octalEscape at h
  split at h
  · cases h
  · next hcode =>
    split at h <;> cases h
    exact length_of_code? hcode

theorem length_escape_lt {cs rest : List Char} {c : Char} (h : escape cs = .ok (c, rest)) :
    rest.length < cs.length := by
  unfold escape at h
  split at h
  · cases h
  · next cs =>
    simp only [List.length_cons]
    split at h
    · cases h; omega
    · split at h
      · have := length_hexEscape h; omega
      · split at h
        · have := length_hexEscape h; omega
        · split at h
          · have := length_hexEscape h; omega
          · split at h
            · have := length_octalEscape h; simp only [List.length_cons] at this; omega
            · cases h

/-- Reads what stands between the quotes. -/
def unescape : List Char → Except Error (List Char)
  | [] => .ok []
  | c :: cs =>
    if c = '"' then .error .bareQuote
    else if c = '\n' then .error .lineFeed
    else if c = '\\' then
      match _h : escape cs with
      | .error e => .error e
      | .ok (d, rest) => (unescape rest).map (d :: ·)
    else (unescape cs).map (c :: ·)
termination_by cs => cs.length
decreasing_by
  · have := length_escape_lt ‹_›
    simp only [List.length_cons]
    omega
  · simp

/-- Reads a quoted text, its quotes included. -/
def ofChars (text : List Char) : Except Error (List Char) :=
  match text with
  | '"' :: cs =>
    if cs.getLast? = some '"' then unescape cs.dropLast
    else .error (.notQuoted (String.ofList text))
  | _ => .error (.notQuoted (String.ofList text))

/-- Reads a quoted text from a string. -/
def unquote (text : String) : Except Error String :=
  (ofChars text.toList).map String.ofList

end Markers.Quoted
