import Markers.Proofs.Grammar.Completeness
import Markers.Proofs.Token.Raw

/-!
# Other line ends

A text may end its lines with a carriage return and a line feed instead of a line feed alone. It has
the same tokens then, at the same places. Only a text between back-ticks holds its line ends, so it
holds the carriage returns too.
-/

namespace Markers

open Grammar

/-- A text with a carriage return in front of each line feed. -/
def crlf (s : List Char) : List Char :=
  s.flatMap fun c => if c = '\n' then ['\r', '\n'] else [c]

def crlfText (text : String) : String := String.ofList (crlf text.toList)

@[simp] theorem crlf_nil : crlf [] = [] := rfl

@[simp] theorem crlf_newline (s : List Char) : crlf ('\n' :: s) = '\r' :: '\n' :: crlf s := rfl

theorem crlf_cons {c : Char} (hc : c ≠ '\n') (s : List Char) : crlf (c :: s) = c :: crlf s := by
  simp [crlf, hc]

theorem crlf_append (s t : List Char) : crlf (s ++ t) = crlf s ++ crlf t :=
  List.flatMap_append

theorem crlf_of_not_mem {s : List Char} (h : '\n' ∉ s) : crlf s = s := by
  induction s with
  | nil => rfl
  | cons c s ih =>
    obtain ⟨hc, hs⟩ := not_or.mp (mt List.mem_cons.mpr h)
    rw [crlf_cons (Ne.symm hc), ih hs]

theorem head?_crlf {a : Char} (hn : a ≠ '\n') (hr : a ≠ '\r') (s : List Char) :
    (crlf s).head? = some a ↔ s.head? = some a := by
  cases s with
  | nil => rfl
  | cons c s =>
    by_cases hc : c = '\n'
    · subst hc
      simp [Ne.symm hn, Ne.symm hr]
    · rw [crlf_cons hc, List.head?_cons, List.head?_cons]

/-- Places do not depend on what stands in front of a line feed. -/
theorem Position.advance_crlf (p : Position) (s : List Char) :
    p.advance (crlf s) = p.advance s := by
  induction s generalizing p with
  | nil => rfl
  | cons c s ih =>
    by_cases hc : c = '\n'
    · subst hc
      rw [crlf_newline, advance_cons, advance_cons, ih]
      rfl
    · rw [crlf_cons hc, advance_cons, ih, advance_cons]

/-! ### Lexemes -/

namespace Lexeme

/-- What follows a lexeme, with the other line ends. -/
def crlfRest (l : List Char × List Char) : List Char × List Char := (l.1, crlf l.2)

theorem takeWhile_crlf {p : Char → Bool} (hr : p '\r' = false) (hn : p '\n' = false)
    (s : List Char) :
    (crlf s).takeWhile p = s.takeWhile p ∧ (crlf s).dropWhile p = crlf (s.dropWhile p) := by
  induction s with
  | nil => exact ⟨rfl, rfl⟩
  | cons c s ih =>
    by_cases hc : c = '\n'
    · subst hc
      simp [hr, hn]
    · cases hp : p c <;> simp [crlf_cons hc, hp, ih]

theorem splitRaw_crlf (cs : List Char) :
    splitRaw (crlf cs) = (splitRaw cs).map fun (part, rest) => (crlf part, crlf rest) := by
  fun_induction splitRaw cs with
  | case1 => rfl
  | case2 cs => rw [crlf_cons (by decide), splitRaw, if_pos rfl]; rfl
  | case3 c cs hc ih =>
    by_cases hn : c = '\n'
    · subst hn
      rw [crlf_newline, splitRaw, if_neg (by decide), splitRaw, if_neg (by decide), ih]
      cases splitRaw cs <;> rfl
    · rw [crlf_cons hn, splitRaw, if_neg hc, ih]
      cases splitRaw cs with
      | none => rfl
      | some l => simp [crlf_cons hn]

/-- A quoted string is over at the end of its line, whatever ends the line. -/
theorem splitQuoted_crlf (cs : List Char) :
    splitQuoted (crlf cs) = (splitQuoted cs).map crlfRest := by
  fun_induction splitQuoted cs with
  | case1 => rfl
  | case2 => rfl
  | case3 c cs hc ih =>
    rw [crlf_cons (by decide), crlf_cons hc, splitQuoted_escaped hc, ih]
    cases splitQuoted cs <;> rfl
  | case4 => rfl
  | case5 cs => rw [crlf_cons (by decide), splitQuoted_quote]; rfl
  | case6 c cs hescape hn hquote ih =>
    rw [crlf_cons hn]
    by_cases hc : c = '\\'
    · -- a backslash that escapes nothing is at the end of the text
      subst hc
      cases cs with
      | nil => rfl
      | cons a cs => exact (hescape a cs rfl rfl).elim
    · rw [splitQuoted_plain hc hn hquote, ih]
      cases splitQuoted cs <;> rfl

theorem raw_crlf (cs : List Char) :
    raw (backTick :: crlf cs) =
      (raw (backTick :: cs)).map fun (part, rest) => (crlf part, crlf rest) := by
  simp only [raw, splitRaw_crlf]
  cases splitRaw cs with
  | none => rfl
  | some l => simp [Except.map, crlf_cons (c := backTick) (by decide)]

theorem quoted_crlf (cs : List Char) :
    quoted ('"' :: crlf cs) = (quoted ('"' :: cs)).map crlfRest := by
  simp only [quoted, splitQuoted_crlf]
  cases splitQuoted cs with
  | none => rfl
  | some l =>
    simp only [Option.map_some, crlfRest]
    cases Quoted.ofChars ('"' :: l.1) <;> rfl

theorem bool_crlf (cs : List Char) : bool (crlf cs) = (bool cs).map crlfRest := by
  obtain ⟨htake, hdrop⟩ := takeWhile_crlf (p := isWordChar) rfl rfl cs
  simp only [bool, htake, hdrop]
  split <;> rfl

theorem number_crlf (cs : List Char) :
    number (crlf cs) = (number cs).map fun (k, l) => (k, crlfRest l) := by
  obtain ⟨htake, hdrop⟩ := takeWhile_crlf (p := isNumberChar) rfl rfl cs
  simp only [number, htake, hdrop]
  split <;> rfl

theorem identifier_crlf (cs : List Char) : identifier (crlf cs) = (identifier cs).map crlfRest := by
  obtain ⟨htake, hdrop⟩ := takeWhile_crlf (p := isIdentifierChar) rfl rfl cs
  simp only [identifier, htake, hdrop]
  split <;> rfl

theorem scalar_crlf (cs : List Char) :
    scalar (crlf cs) = (scalar cs).map fun (k, l) => (k, crlfRest l) := by
  unfold scalar
  simp only [head?_crlf (by decide : '"' ≠ '\n') (by decide),
    head?_crlf (by decide : 't' ≠ '\n') (by decide),
    head?_crlf (by decide : 'f' ≠ '\n') (by decide)]
  split
  · next hhead =>
    obtain ⟨cs, rfl⟩ := List.head?_eq_some_iff.mp hhead
    rw [crlf_cons (by decide), quoted_crlf]
    cases quoted ('"' :: cs) <;> rfl
  · split
    · rw [bool_crlf]
      cases bool cs <;> rfl
    · exact number_crlf cs

theorem scalarStart?_crlf (cs : List Char) : scalarStart? (crlf cs) = scalarStart? cs := by
  cases cs with
  | nil => rfl
  | cons c cs =>
    by_cases hc : c = '\n'
    · subst hc
      rfl
    · rw [crlf_cons hc]
      rfl

theorem elementStart?_crlf (cs : List Char) : elementStart? (crlf cs) = elementStart? cs := by
  cases cs with
  | nil => rfl
  | cons c cs =>
    by_cases hc : c = '\n'
    · subst hc
      rfl
    · rw [crlf_cons hc]
      rfl

end Lexeme

/-! ### Tokens -/

/-- The token of a text with the other line ends: they stand in texts between back-ticks only. -/
def Token.crlf (t : Token) : Token :=
  if t.isRaw then { t with text := crlfText t.text } else t

namespace Token

theorem crlf_of_not_raw {t : Token} (h : t.isRaw = false) : t.crlf = t := by
  rw [Token.crlf, h]
  rfl

theorem crlf_of_kind {t : Token} (h : t.kind ≠ .string) : t.crlf = t :=
  crlf_of_not_raw (by simp [isRaw, h])

theorem RawAssigned.crlf_eq {a t : Token} {ts : List Token} (H : RawAssigned (a :: t :: ts))
    (ha : a.kind ≠ .assign) : t.crlf = t := by
  refine crlf_of_not_raw (Bool.eq_false_iff.mpr fun ht => ?_)
  exact ha ((rawAssigned_cons_cons.mp H).1 ht)

theorem crlf_raw (cs : List Char) (p : Position) :
    Token.crlf ⟨.string, String.ofList (Lexeme.backTick :: cs), p⟩ =
      ⟨.string, String.ofList (Markers.crlf (Lexeme.backTick :: cs)), p⟩ := by
  simp [Token.crlf, isRaw, crlfText]

end Token

/-- The cursor in the text with the other line ends. -/
def Cursor.crlf (c : Cursor) : Cursor := ⟨Markers.crlf c.rest, c.position⟩

def Scan.crlf (s : Scan) : Scan := ⟨s.tokens.map Token.crlf, s.resume.map Cursor.crlf⟩

namespace Scan

theorem crlf_ofToken {t : Token} (h : t.kind ≠ .string) : (ofToken t).crlf = ofToken t := by
  rw [ofToken, Scan.crlf, List.map_singleton, Token.crlf_of_kind h]
  rfl

theorem crlf_ofFault (f : Fault) (p : Position) : (ofFault f p).crlf = ofFault f p :=
  crlf_ofToken (by simp)

theorem crlf_cons (t : Token) (s : Scan) : (s.cons t).crlf = s.crlf.cons t.crlf := rfl

theorem crlf_cons_of_not_raw {t : Token} (h : t.isRaw = false) (s : Scan) :
    (s.cons t).crlf = s.crlf.cons t := by
  rw [crlf_cons, Token.crlf_of_not_raw h]

theorem crlf_cons_of_kind {t : Token} (h : t.kind ≠ .string) (s : Scan) :
    (s.cons t).crlf = s.crlf.cons t :=
  crlf_cons_of_not_raw (Token.isRaw_of_kind h) s

end Scan

namespace Cursor

variable {c c' : Cursor} {part : List Char} {last : Position}

@[simp] theorem rest_crlf (c : Cursor) : c.crlf.rest = Markers.crlf c.rest := rfl

theorem crlf_of_not_mem (h : '\n' ∉ c.rest) : c.crlf = c := by
  rw [Cursor.crlf, Markers.crlf_of_not_mem h]

theorem Moves.crlf (h : c.Moves part c') : c.crlf.Moves (Markers.crlf part) c'.crlf := by
  constructor
  · rw [Cursor.crlf, h.rest, crlf_append]
    rfl
  · rw [Position.advance_crlf]
    exact h.position

theorem Moves.not_mem {a : Char} (h : c.Moves part c') (ha : a ∉ c.rest) : a ∉ c'.rest :=
  fun hmem => ha (h.suffix.mem hmem)

/-- The front of a text without carriage returns, and of the text with the other line ends. -/
theorem rest_crlf_cases (hreturn : '\r' ∉ c.rest) :
    (c.rest = [] ∧ c.crlf.rest = []) ∨
    (∃ cs, c.rest = '\n' :: cs ∧ c.crlf.rest = '\r' :: '\n' :: Markers.crlf cs) ∨
    ∃ a cs, a ≠ '\n' ∧ a ≠ '\r' ∧ c.rest = a :: cs ∧ c.crlf.rest = a :: Markers.crlf cs := by
  rw [rest_crlf]
  cases hrest : c.rest with
  | nil => exact .inl ⟨rfl, rfl⟩
  | cons a cs =>
    by_cases hn : a = '\n'
    · subst hn
      exact .inr (.inl ⟨cs, rfl, crlf_newline cs⟩)
    · have hr : a ≠ '\r' := by
        rintro rfl
        exact hreturn (hrest ▸ List.mem_cons_self)
      exact .inr (.inr ⟨a, cs, hn, hr, rfl, crlf_cons hn cs⟩)

/-! ### Scans -/

/-- A scalar in the text with the other line ends, or its fault. -/
def crlfScalar (r : Except (Fault × Position) (Token × Cursor)) :
    Except (Fault × Position) (Token × Cursor) :=
  r.map fun (t, c) => (t, c.crlf)

theorem scalar_crlf (c : Cursor) : c.crlf.scalar = crlfScalar c.scalar := by
  unfold scalar
  rw [rest_crlf, Lexeme.scalar_crlf]
  cases Lexeme.scalar c.rest <;> rfl

theorem scalarBehind_crlf (last : Position) (c : Cursor) :
    c.crlf.scalarBehind last = crlfScalar (c.scalarBehind last) := by
  unfold scalarBehind
  rw [rest_crlf, Lexeme.scalarStart?_crlf]
  split
  · rfl
  · exact scalar_crlf c

theorem elementBehind_crlf (last : Position) (c : Cursor) :
    c.crlf.elementBehind last = crlfScalar (c.elementBehind last) := by
  unfold elementBehind
  rw [rest_crlf, Lexeme.elementStart?_crlf]
  split
  · rfl
  · exact scalar_crlf c

/-- Behind a value, only a line end or the end of the text is no fault. -/
theorem afterValue_fault {a : Char} {cs : List Char} (hrest : c.rest = a :: cs) (hn : a ≠ '\n')
    (hr : a ≠ '\r') (last : Position) : c.afterValue last = .ofFault (.afterValue a) last := by
  rw [afterValue, hrest]
  split
  · next heq => cases heq
  · next heq => exact absurd (List.cons.inj heq).1 hn
  · next heq => exact absurd (List.cons.inj heq).1 hr
  · next heq =>
    cases heq
    rfl

theorem afterValue_crlf (hreturn : '\r' ∉ c.rest) (last : Position) :
    c.crlf.afterValue last = (c.afterValue last).crlf := by
  rcases rest_crlf_cases hreturn with
    ⟨hrest, hrest'⟩ | ⟨cs, hrest, hrest'⟩ | ⟨a, cs, hn, hr, hrest, hrest'⟩
  · simp only [afterValue, hrest, hrest']
    rfl
  · simp only [afterValue, hrest, hrest']
    rfl
  · rw [afterValue_fault hrest hn hr, afterValue_fault hrest' hn hr, Scan.crlf_ofFault]

/-- What follows the elements of a list, by its first character. -/
theorem afterElements_cons {a : Char} {cs : List Char} (hrest : c.rest = a :: cs)
    (last : Position) :
    c.afterElements last =
      if a = ']' then .cons (c.token .listClose [']'] cs).1
        ((c.behind [']'] cs).afterValue c.position)
      else if a = ',' then .cons (c.token .comma [','] cs).1 (.ofFault .commaSpace c.position)
      else .ofFault (if a = ' ' ∨ a = '\t' then .blankAfterElement
        else if a = '\n' ∨ a = '\r' then .unterminatedList else .inList a) last := by
  rw [afterElements, hrest]
  split
  case h_8 _ hclose hcomma hspace htab hn hr heq =>
    cases heq
    rw [if_neg hclose, if_neg hcomma, if_neg (not_or.mpr ⟨hspace, htab⟩),
      if_neg (not_or.mpr ⟨hn, hr⟩)]
  all_goals
    next heq => cases heq <;> rfl

theorem afterElements_crlf (hreturn : '\r' ∉ c.rest) (last : Position) :
    c.crlf.afterElements last = (c.afterElements last).crlf := by
  rcases rest_crlf_cases hreturn with
    ⟨hrest, hrest'⟩ | ⟨cs, hrest, hrest'⟩ | ⟨a, cs, -, -, hrest, hrest'⟩
  · simp only [afterElements, hrest, hrest']
    rw [Scan.crlf_ofFault]
  · rw [afterElements_cons hrest, afterElements_cons hrest']
    exact (Scan.crlf_ofFault _ _).symm
  · rw [afterElements_cons hrest, afterElements_cons hrest']
    split
    · next hclose =>
      subst hclose
      have hmoves : c.Moves [']'] (c.behind [']'] cs) := .behind hrest
      rw [Scan.crlf_cons_of_kind (by simp [token]), ← afterValue_crlf (hmoves.not_mem hreturn)]
      rfl
    · split
      · rw [Scan.crlf_cons_of_kind (by simp [token]), Scan.crlf_ofFault]
        rfl
      · rw [Scan.crlf_ofFault]

theorem comma_of_crlf {s tail : List Char} (h : Markers.crlf s = ',' :: ' ' :: tail) :
    ∃ tail', s = ',' :: ' ' :: tail' := by
  have hcomma : s.head? = some ',' := (head?_crlf (by decide) (by decide) s).mp (by rw [h]; rfl)
  obtain ⟨s, rfl⟩ := List.head?_eq_some_iff.mp hcomma
  rw [crlf_cons (by decide)] at h
  have hspace : s.head? = some ' ' :=
    (head?_crlf (by decide) (by decide) s).mp (by rw [(List.cons.inj h).2]; rfl)
  obtain ⟨s, rfl⟩ := List.head?_eq_some_iff.mp hspace
  exact ⟨s, rfl⟩

theorem elements_crlf (hreturn : '\r' ∉ c.rest) (last : Position) :
    c.crlf.elements last = (c.elements last).crlf := by
  fun_induction elements last c with
  | case1 last c f p h =>
    have helem := elementBehind_crlf last c
    rw [h] at helem
    rw [elements_error helem, Scan.crlf_ofFault]
  | case2 last c t c' h cs hrest ih =>
    obtain ⟨part, x, ht⟩ := isScalar_of_elementBehind h
    have hcomma : c'.Moves [',', ' '] (c'.behind [',', ' '] cs) := .behind hrest
    have hreturn' := hcomma.not_mem (ht.moves.not_mem hreturn)
    have helem := elementBehind_crlf last c
    rw [h] at helem
    rw [elements_comma helem hcomma.crlf, Scan.crlf_cons_of_not_raw ht.isRaw,
      Scan.crlf_cons_of_kind (by simp [token]), ← ih hreturn']
    rfl
  | case3 last c t c' h hne =>
    obtain ⟨part, x, ht⟩ := isScalar_of_elementBehind h
    have helem := elementBehind_crlf last c
    rw [h] at helem
    rw [elements_eq helem, Scan.crlf_cons_of_not_raw ht.isRaw,
      ← afterElements_crlf (ht.moves.not_mem hreturn)]
    split
    · next hcomma =>
      obtain ⟨cs, hcs⟩ := comma_of_crlf hcomma
      exact absurd hcs (hne _)
    · rfl

theorem value_crlf (hreturn : '\r' ∉ c.rest) (last : Position) :
    c.crlf.value last = (c.value last).crlf := by
  by_cases hlist : c.rest.head? = some '['
  · obtain ⟨cs, hrest⟩ := List.head?_eq_some_iff.mp hlist
    have hopen : c.Moves ['['] (c.behind ['['] cs) := .behind hrest
    rw [value_list hopen, value_list hopen.crlf, Scan.crlf_cons_of_kind (by simp [token]),
      ← elements_crlf (hopen.not_mem hreturn)]
    rfl
  by_cases hback : c.rest.head? = some Lexeme.backTick
  · obtain ⟨cs, hrest⟩ := List.head?_eq_some_iff.mp hback
    have hrest' : c.crlf.rest = Lexeme.backTick :: Markers.crlf cs := by
      rw [rest_crlf, hrest, crlf_cons (by decide)]
    have hcrlf := Lexeme.raw_crlf cs
    rw [← hrest, ← hrest'] at hcrlf
    rw [value_backTick hrest, value_backTick hrest', hcrlf]
    cases hraw : Lexeme.raw c.rest with
    | error f => exact (Scan.crlf_ofFault _ _).symm
    | ok l =>
      obtain ⟨part, rest⟩ := l
      have hmoves : c.Moves part (c.behind part rest) := .behind (Lexeme.append_of_raw hraw).1.symm
      have hbehind := hmoves.crlf.eq_behind
      rw [hrest] at hraw
      obtain ⟨text, rfl, -⟩ := Lexeme.raw_sound hraw
      simp only [Except.map, token]
      rw [Scan.crlf_cons, Token.crlf_raw, ← afterValue_crlf (hmoves.not_mem hreturn), hbehind]
      rfl
  rw [value_of_head? hlist hback, value_of_head?, scalarBehind_crlf]
  · cases h : c.scalarBehind last with
    | error e => exact (Scan.crlf_ofFault _ _).symm
    | ok s =>
      obtain ⟨t, c'⟩ := s
      obtain ⟨part, x, ht⟩ := isScalar_of_scalarBehind h
      simp only [crlfScalar, Except.map]
      rw [Scan.crlf_cons_of_not_raw ht.isRaw, afterValue_crlf (ht.moves.not_mem hreturn)]
  · rwa [rest_crlf, ne_eq, head?_crlf (by decide) (by decide)]
  · rwa [rest_crlf, ne_eq, head?_crlf (by decide) (by decide)]

theorem bareMarker_crlf (hreturn : '\r' ∉ c.rest) : c.crlf.bareMarker = c.bareMarker.crlf := by
  rw [bareMarker, bareMarker, Scan.crlf_cons_of_kind (by simp), Scan.crlf_cons_of_kind (by simp),
    ← afterValue_crlf hreturn]
  rfl

/-- Behind an identifier, only an assignment, a line end or the end of the text is no fault. -/
theorem afterIdentifier_fault {a : Char} {cs : List Char} (hrest : c.rest = a :: cs)
    (hassign : a ≠ '=') (hn : a ≠ '\n') (hr : a ≠ '\r') (last : Position) :
    c.afterIdentifier last = .ofFault (.afterIdentifier a) last := by
  rw [afterIdentifier, hrest]
  split
  · next heq => exact absurd (List.cons.inj heq).1 hassign
  · next heq => cases heq
  · next heq => exact absurd (List.cons.inj heq).1 hn
  · next heq => exact absurd (List.cons.inj heq).1 hr
  · next heq =>
    cases heq
    rfl

theorem afterIdentifier_crlf (hreturn : '\r' ∉ c.rest) (last : Position) :
    c.crlf.afterIdentifier last = (c.afterIdentifier last).crlf := by
  have hbare (h : Lexeme.EndsLine c.rest) (h' : Lexeme.EndsLine c.crlf.rest) :
      c.crlf.afterIdentifier last = (c.afterIdentifier last).crlf := by
    rw [afterIdentifier_bare h, afterIdentifier_bare h', bareMarker_crlf hreturn]
  rcases rest_crlf_cases hreturn with
    ⟨hrest, hrest'⟩ | ⟨cs, hrest, hrest'⟩ | ⟨a, cs, hn, hr, hrest, hrest'⟩
  · exact hbare (.inl hrest) (.inl hrest')
  · exact hbare (.inr ⟨_, cs, .inl rfl, hrest⟩) (.inr ⟨_, Markers.crlf cs, .inr rfl, hrest'⟩)
  · by_cases hassign : a = '='
    · subst hassign
      have hmoves : c.Moves ['='] (c.behind ['='] cs) := .behind hrest
      rw [afterIdentifier_assign hmoves, afterIdentifier_assign hmoves.crlf,
        Scan.crlf_cons_of_kind (by simp [token]), ← value_crlf (hmoves.not_mem hreturn)]
      rfl
    · rw [afterIdentifier_fault hrest hassign hn hr, afterIdentifier_fault hrest' hassign hn hr,
        Scan.crlf_ofFault]

theorem marker_crlf (hreturn : '\r' ∉ c.rest) : c.crlf.marker = c.marker.crlf := by
  unfold marker
  rw [rest_crlf, Lexeme.identifier_crlf]
  cases h : Lexeme.identifier c.rest with
  | error f => exact (Scan.crlf_ofFault _ _).symm
  | ok l =>
    obtain ⟨part, rest⟩ := l
    have hmoves : c.Moves part (c.behind part rest) :=
      .behind (Lexeme.append_of_identifier h).1.symm
    simp only [Except.map, token]
    rw [Scan.crlf_cons_of_kind (by simp), ← afterIdentifier_crlf (hmoves.not_mem hreturn)]
    rfl

/-- A line is prose whatever ends it. -/
theorem isProse_return {line : List Char} (h : IsProse line) : IsProse (line ++ ['\r']) := by
  refine ⟨?_, fun hstart => h.2 (hstart.of_append (.inr rfl))⟩
  simp [h.1]

theorem scan_crlf (hreturn : '\r' ∉ c.rest) : c.crlf.scan = c.scan.crlf := by
  have hline := c.lineStart
  generalize hscan : c.scan = scan at hline ⊢
  cases hline with
  | finish hindent =>
    rw [crlf_of_not_mem hindent.newline_not_mem, hscan, Scan.crlf_ofToken (by simp [Token.finish])]
  | marker _ _ hstart =>
    rw [← hscan]
    obtain ⟨indent, l, cs, hindent, hrest, hl⟩ := hstart
    have hnl : l ≠ '\n' := by
      rintro rfl
      exact absurd hl (by decide)
    have hplus : '\n' ∉ indent ++ ['+'] := by simp [hindent.newline_not_mem]
    have hrest' : c.crlf.rest = indent ++ '+' :: l :: Markers.crlf cs := by
      rw [rest_crlf, hrest, crlf_append, Markers.crlf_of_not_mem hindent.newline_not_mem,
        crlf_cons (by decide), crlf_cons hnl]
    obtain ⟨c1, hmoves, hscan1⟩ := scan_marker hindent hrest hl
    obtain ⟨c2, hmoves', hscan2⟩ := scan_marker hindent hrest' hl
    have hcrlf := hmoves.crlf
    rw [Markers.crlf_of_not_mem hplus] at hcrlf
    rw [hscan1, hscan2, hmoves'.unique hcrlf, marker_crlf (hmoves.not_mem hreturn),
      Scan.crlf_cons_of_kind (by simp)]
    rfl
  | @prose line c' hmoves hend hn =>
    have hnone : '\n' ∉ c.rest := by rwa [hmoves.rest, hend, List.append_nil]
    have hnone' : '\n' ∉ c'.rest := by simp [hend]
    rw [crlf_of_not_mem hnone, hscan]
    exact congrArg Scan.resumeAt (crlf_of_not_mem hnone').symm
  | @proseLine line c' hmoves hn hstart =>
    have hrest : c.crlf.rest = (line ++ ['\r']) ++ '\n' :: Markers.crlf c'.rest := by
      rw [hmoves.crlf.rest, crlf_append, Markers.crlf_of_not_mem hn]
      simp
    rw [hmoves.rest, List.append_assoc] at hstart
    have hprose : IsProse line := isProse_of_not_startsMarker hn hstart
    obtain ⟨c'', hmoves', hscan'⟩ := scan_proseLine (isProse_return hprose) hrest
    have hcrlf := hmoves.crlf
    rw [crlf_append, Markers.crlf_of_not_mem hn] at hcrlf
    rw [List.append_assoc] at hmoves'
    rw [hscan', hmoves'.unique hcrlf]
    rfl

theorem suffix_resume_scan (h : c.scan.resume = some c') : c'.rest <:+ c.rest := by
  have hline := c.lineStart
  generalize c.scan = scan at hline h
  cases hline with
  | finish => cases h
  | marker _ hmoves => exact ((run_marker _).suffix h).trans hmoves.suffix
  | prose hmoves | proseLine hmoves =>
    cases h
    exact hmoves.suffix

/-- The tokens of a text with the other line ends. -/
theorem tokens_crlf (hreturn : '\r' ∉ c.rest) : c.crlf.tokens = c.tokens.map Token.crlf :=
  tokens_map (P := fun c => '\r' ∉ c.rest) (fun _ h => scan_crlf h)
    (fun _ _ h hresume hmem => h ((suffix_resume_scan hresume).mem hmem)) c hreturn

end Cursor

end Markers
