import Markers.Proofs.Grammar.Completeness
import Markers.Proofs.Literal.Digits

/-!
# Writing markers down

Integers are written in decimal, strings with escapes between quotes or verbatim between back-ticks,
and lists of these between brackets. Lines of markers that are written so are in the grammar,
whatever the strings hold, and parse as what was written.
-/

namespace Markers

namespace Render

def isControl (c : Char) : Bool :=
  c.toNat < 0x20 || (0x7f ≤ c.toNat && c.toNat ≤ 0x9f)

/-- A code point in eight hexadecimal digits. -/
def hexDigits (c : Char) : List Char := (Nat.toDigits 16 c.toNat).leftpad 8 '0'

/-- A character as it stands between quotes. -/
def escaped (c : Char) : List Char :=
  if c = '"' ∨ c = '\\' then ['\\', c]
  else if isControl c then '\\' :: 'U' :: hexDigits c
  else [c]

def quoted (s : String) : List Char := '"' :: (s.toList.flatMap escaped ++ ['"'])

/-- What can be an element of a list. -/
inductive Scalar where
  | int (value : Int64)
  | bool (value : Bool)
  | string (value : String)

namespace Scalar

def literal : Scalar → Literal
  | int v => .int v
  | bool b => .bool b
  | string s => .string s

def text : Scalar → List Char
  | int v => (toString v.toInt).toList
  | bool b => (toString b).toList
  | string s => quoted s

end Scalar

/-- A value, and for a string how it is to be written. -/
inductive Value where
  | scalar (x : Scalar)
  | verbatim (s : String) (h : Lexeme.backTick ∉ s.toList)
  | list (x : Scalar) (xs : List Scalar)

namespace Value

def literal : Value → Literal
  | scalar x => x.literal
  | verbatim s _ => .string s
  | list x xs => .list ((x :: xs).map Scalar.literal)

def text : Value → List Char
  | scalar x => x.text
  | verbatim s _ => Lexeme.backTick :: (s.toList ++ [Lexeme.backTick])
  | list x xs => '[' :: ([',', ' '].intercalate ((x :: xs).map Scalar.text) ++ [']'])

end Value

/-- A marker that is to be written, with an identifier that can be read. -/
structure Entry where
  identifier : Identifier
  read : ∃ text, Identifier.parse text = .ok identifier
  value : Value

def Entry.text (e : Entry) : List Char :=
  '+' :: ((toString e.identifier).toList ++ '=' :: e.value.text)

/-- One line for each marker. -/
def block (es : List Entry) : List Char := ['\n'].intercalate (es.map Entry.text)

open Quoted

theorem hexEscape_hexDigits {c : Char} (h : isControl c = true) (cs : List Char) :
    hexEscape 8 (hexDigits c ++ cs) = .ok (c, cs) := by
  have hsmall : c.toNat < 16 ^ 8 := by
    simp [isControl] at h
    omega
  have hlength : (hexDigits c).length = 8 := by
    rw [hexDigits, List.length_leftpad]
    exact Nat.max_eq_left ((Nat.length_toDigits_le_iff (by decide) (by decide)).mpr hsmall)
  obtain ⟨ds, hds, hvalue⟩ := mapM_digit?_toDigits (by decide : 1 < 16) (by decide) c.toNat
  obtain ⟨es, hes, heq⟩ := mapM_digit?_leftpad (by decide) (by decide) 8 hds
  have hcode : code? 16 8 (hexDigits c ++ cs) = some (c.toNat, cs) := by
    rw [code?, if_neg (by simp [hlength]), List.take_left' hlength, List.drop_left' hlength,
      hexDigits, hes, Option.map_some, heq, hvalue]
  rw [hexEscape, hcode]
  simp only [scalarValue?_toNat]

/-- A character reads back from how it stands between quotes. -/
theorem unescape_escaped (c : Char) (cs : List Char) :
    unescape (escaped c ++ cs) = (unescape cs).map (c :: ·) := by
  unfold escaped
  split
  · next h =>
    apply unescape_backslash
    rcases h with rfl | rfl <;> rfl
  · next h =>
    obtain ⟨h1, h3⟩ := not_or.mp h
    split
    · next hcontrol =>
      apply unescape_backslash
      exact hexEscape_hexDigits hcontrol cs
    · next hcontrol =>
      refine unescape_plain h1 ?_ h3 cs
      rintro rfl
      exact hcontrol rfl

theorem unescape_flatMap (s : List Char) : unescape (s.flatMap escaped) = .ok s := by
  induction s with
  | nil => rw [List.flatMap_nil, unescape]
  | cons c s ih =>
    rw [List.flatMap_cons, unescape_escaped, ih]
    rfl

theorem ofChars_quoted (s : String) : Quoted.ofChars (quoted s) = .ok s.toList := by
  simp only [quoted, Quoted.ofChars]
  rw [if_pos List.getLast?_concat, List.dropLast_concat, unescape_flatMap]

/-! ### Values and markers are in the grammar -/

theorem scalar_text (x : Scalar) : Grammar.Scalar x.text x.literal := by
  cases x with
  | int v =>
    have hnumber : Number.ofChars (toString v.toInt).toList = .ok (.int v) := by
      simp only [Number.ofChars, Integer.ofChars_toString]
    exact .number hnumber
  | bool b => exact .bool b
  | string s =>
    have hstring := Grammar.Scalar.string (ofChars_quoted s)
    rw [String.ofList_toList] at hstring
    exact hstring

theorem scalars_text (x : Scalar) (xs : List Scalar) :
    Grammar.Scalars ([',', ' '].intercalate ((x :: xs).map Scalar.text))
      ((x :: xs).map Scalar.literal) := by
  induction xs generalizing x with
  | nil =>
    rw [List.map_singleton, List.map_singleton, List.intercalate_singleton]
    exact .one (scalar_text x)
  | cons y ys ih =>
    rw [List.map_cons, List.map_cons, List.intercalate_cons_cons, List.append_assoc]
    exact .cons (scalar_text x) (ih y)

theorem value_text (x : Value) : Grammar.Value x.text x.literal := by
  cases x with
  | scalar x => exact .scalar (scalar_text x)
  | verbatim s h =>
    have hraw := Grammar.Value.raw h
    rw [String.ofList_toList] at hraw
    exact hraw
  | list x xs => exact .list (scalars_text x xs)

theorem segment_text (e : Entry) (before : List Char) :
    Grammar.Segment before e.text ⟨e.identifier, e.value.literal, .endOf before⟩ := by
  obtain ⟨text, hread⟩ := e.read
  have hname : Identifier.ofChars (toString e.identifier).toList = .ok e.identifier := by
    rw [Identifier.toString_of_parse hread]
    exact hread
  exact .mk Grammar.isIndent_nil hname (.value (value_text e.value)) (by rw [List.append_nil])

/-- What is written of a marker, apart from its place. -/
def Entry.content (e : Entry) : Identifier × Literal := (e.identifier, e.value.literal)

theorem block_text (es : List Entry) (before : List Char) :
    ∃ ms, Grammar.Block before (block es) ms ∧
      ms.map (fun m => (m.identifier, m.value)) = es.map Entry.content := by
  induction es generalizing before with
  | nil => exact ⟨[], .prose Grammar.isIndent_nil.isProse, rfl⟩
  | cons e es ih =>
    cases es with
    | nil =>
      rw [block, List.map_singleton, List.intercalate_singleton]
      exact ⟨_, .segment (segment_text e before), rfl⟩
    | cons e' es =>
      obtain ⟨ms, hblock, hms⟩ := ih (before ++ (e.text ++ ['\n']))
      have hfirst := segment_text e before
      refine ⟨⟨e.identifier, e.value.literal, .endOf before⟩ :: ms, ?_, ?_⟩
      · rw [block, List.map_cons, List.map_cons, List.intercalate_cons_cons, List.append_assoc]
        exact .segmentLine hfirst (.inl rfl) hblock
      · rw [List.map_cons, List.map_cons, hms]
        rfl

end Render

/-- What is written parses as the markers that were written. -/
theorem Marker.parse_render (es : List Render.Entry) :
    ∃ ms, Marker.parse (String.ofList (Render.block es)) = .ok ms ∧
      ms.map (fun m => (m.identifier, m.value)) =
        es.map fun e => (e.identifier, e.value.literal) := by
  obtain ⟨ms, hblock, hms⟩ := Render.block_text es []
  refine ⟨ms, ?_, hms⟩
  exact Cursor.tokens_of_block hblock Position.endOf_nil.symm String.toList_ofList

/-- The least integer, a text between back-ticks with a quote in it, and a list with a separator
inside one of its strings. -/
theorem Marker.parse_render_lines :
    let i : Identifier := ⟨"a", "b", "c"⟩
    let hi : ∃ text, Identifier.parse text = .ok i := ⟨"a:b:c", by decide +kernel⟩
    let es : List Render.Entry :=
      [⟨i, hi, .scalar (.int Int64.minValue)⟩, ⟨i, hi, .verbatim "\"\n+" (by decide)⟩,
        ⟨i, hi, .list (.bool true) [.string ", ]\n"]⟩]
    let text := "+a:b:c=-9223372036854775808\n" ++ "+a:b:c=\x60\"\n+\x60\n" ++
      "+a:b:c=[true, \", ]\\U0000000a\"]"
    String.ofList (Render.block es) = text ∧
      ∃ ms, Marker.parse text = .ok ms ∧ ms.map (fun m => (m.identifier, m.value)) =
        [(i, .int Int64.minValue), (i, .string "\"\n+"),
          (i, .list [.bool true, .string ", ]\n"])] := by
  intro i hi es text
  have htext : String.ofList (Render.block es) = text := by decide +kernel
  obtain ⟨ms, hparse, hms⟩ := Marker.parse_render es
  rw [htext] at hparse
  exact ⟨htext, ms, hparse, hms⟩

end Markers
