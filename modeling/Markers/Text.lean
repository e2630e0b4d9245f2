/-!
# Characters and their places

Which characters are white space and which are digits, and where in a text they stand. A cursor is
what is left of a text together with the place where that rest begins.
-/

namespace Markers

/-! ### White space -/

/-- The code points with the Unicode property White_Space, as of version 15.1, in closed ranges,
ascending and apart. -/
def blankRanges : List (Nat × Nat) :=
  [(0x09, 0x0d), (0x20, 0x20), (0x85, 0x85), (0xa0, 0xa0), (0x1680, 0x1680), (0x2000, 0x200a),
   (0x2028, 0x2029), (0x202f, 0x202f), (0x205f, 0x205f), (0x3000, 0x3000)]

/-- Is the character white space? -/
def isBlank (c : Char) : Bool :=
  blankRanges.any fun r => r.1 ≤ c.toNat && c.toNat ≤ r.2

/-! ### Digits -/

/-- The value of a digit in a base up to sixteen; letters count in either case. -/
def digit? (base : Nat) (c : Char) : Option Nat :=
  let value : Option Nat :=
    if '0' ≤ c ∧ c ≤ '9' then some (c.toNat - '0'.toNat)
    else if 'a' ≤ c ∧ c ≤ 'f' then some (c.toNat - 'a'.toNat + 10)
    else if 'A' ≤ c ∧ c ≤ 'F' then some (c.toNat - 'A'.toNat + 10)
    else none
  value.filter (· < base)

/-- The number that digits denote, most significant first. -/
def ofDigits (base : Nat) (digits : List Nat) : Nat :=
  digits.foldl (fun n d => n * base + d) 0

theorem lt_of_digit? {base : Nat} {c : Char} {d : Nat} (h : digit? base c = some d) : d < base := by
  simp only [digit?, Option.filter_eq_some_iff] at h
  simpa using h.2

/-- The character with a code point, if the number is one: surrogates are none. -/
def scalarValue? (code : Nat) : Option Char :=
  if code.isValidChar then some (Char.ofNat code) else none

theorem scalarValue?_toNat (c : Char) : scalarValue? c.toNat = some c := by
  have h : c.toNat.isValidChar := c.valid
  simp [scalarValue?, h]

/-! ### Places -/

/-- A line and a column, both counted from one. Columns count characters, and only a line feed
opens a line. -/
structure Position where
  line : Nat
  column : Nat
  deriving DecidableEq, Repr

namespace Position

/-- The place of the first character of a text. -/
def start : Position := ⟨1, 1⟩

/-- The place of what stands in no text. -/
def outside : Position := ⟨0, 0⟩

/-- The place behind one character. -/
def step (p : Position) (c : Char) : Position :=
  if c = '\n' then ⟨p.line + 1, 1⟩ else ⟨p.line, p.column + 1⟩

/-- The place behind a run of characters. -/
def advance (p : Position) (s : List Char) : Position :=
  s.foldl step p

instance : ToString Position := ⟨fun p => s!"{p.line}:{p.column}"⟩

@[simp] theorem advance_nil (p : Position) : p.advance [] = p := rfl

@[simp] theorem advance_cons (p : Position) (c : Char) (s : List Char) :
    p.advance (c :: s) = (p.step c).advance s := rfl

theorem advance_append (p : Position) (s t : List Char) :
    p.advance (s ++ t) = (p.advance s).advance t := by
  simp [advance]

end Position

/-- The rest of a text, and the place of its first character. -/
structure Cursor where
  rest : List Char
  position : Position
  deriving DecidableEq, Repr

namespace Cursor

/-- The cursor at the beginning of a text. -/
def ofString (text : String) : Cursor := ⟨text.toList, .start⟩

/-- The cursor behind `part`, where `rest` is what follows `part`. -/
def behind (c : Cursor) (part rest : List Char) : Cursor := ⟨rest, c.position.advance part⟩

/-- The cursor behind the longest run of characters that satisfy `p`. -/
def dropWhile (c : Cursor) (p : Char → Bool) : Cursor :=
  c.behind (c.rest.takeWhile p) (c.rest.dropWhile p)

/-- The cursor behind the first line feed, or at the end of the text if there is none. -/
def nextLine (c : Cursor) : Cursor :=
  let c := c.dropWhile (· ≠ '\n')
  c.behind (c.rest.take 1) (c.rest.drop 1)

theorem length_dropWhile_le (c : Cursor) (p : Char → Bool) :
    (c.dropWhile p).rest.length ≤ c.rest.length :=
  (List.dropWhile_suffix p).length_le

theorem length_nextLine_lt (c : Cursor) (h : c.rest ≠ []) :
    c.nextLine.rest.length < c.rest.length := by
  have hle := c.length_dropWhile_le (· ≠ '\n')
  have hpos := List.length_pos_iff.mpr h
  simp only [nextLine, behind, List.length_drop]
  omega

end Cursor

end Markers
