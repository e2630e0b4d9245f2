import Markers.Proofs.Grammar.Completeness

/-!
# Texts that go on with another line

A text that ends may as well go on with another line. What is scanned of it stays the same: the
same tokens, the same faults, and where the text was over scanning resumes at the new line
(`Scan.Continued`). Two faults may be mended by what follows: a text between back-ticks that is
still open, and a carriage return at the very end, which a line feed makes a line end of.
-/

namespace Markers

open Grammar

namespace Lexeme

variable {more : List Char}

/-- What follows a lexeme goes on with another line. -/
def goOn (more : List Char) (l : List Char × List Char) : List Char × List Char :=
  (l.1, l.2 ++ '\n' :: more)

theorem takeWhile_append_newline (more : List Char) {p : Char → Bool} (hp : p '\n' = false)
    (cs : List Char) :
    (cs ++ '\n' :: more).takeWhile p = cs.takeWhile p ∧
      (cs ++ '\n' :: more).dropWhile p = cs.dropWhile p ++ '\n' :: more := by
  induction cs with
  | nil => simp [hp]
  | cons c cs ih => cases hc : p c <;> simp [hc, ih]

theorem head?_append_newline (more : List Char) {a : Char} (ha : a ≠ '\n') (cs : List Char) :
    (cs ++ '\n' :: more).head? = some a ↔ cs.head? = some a := by
  cases cs <;> simp [Ne.symm ha]

theorem raw_error {cs : List Char} {f : Fault} (h : raw cs = .error f) : f = .unterminatedRaw := by
  unfold raw at h
  split at h
  · cases h
    rfl
  · split at h <;> cases h
    rfl

theorem splitQuoted_append_newline (cs : List Char) :
    splitQuoted (cs ++ '\n' :: more) = (splitQuoted cs).map (goOn more) := by
  fun_induction splitQuoted cs with
  | case1 => rfl
  | case2 => rfl
  | case3 c cs hc ih =>
    rw [List.cons_append, List.cons_append, splitQuoted_escaped hc, ih]
    cases splitQuoted cs <;> rfl
  | case4 => rfl
  | case5 cs => rw [List.cons_append, splitQuoted_quote]; rfl
  | case6 c cs hescape hn hquote ih =>
    by_cases hc : c = '\\'
    · -- a backslash at the end of the text stands in front of the line feed
      subst hc
      cases cs with
      | nil => rfl
      | cons a cs => exact (hescape a cs rfl rfl).elim
    · rw [List.cons_append, splitQuoted_plain hc hn hquote, ih]
      cases splitQuoted cs <;> rfl

theorem quoted_append_newline (c : Char) (cs : List Char) :
    quoted (c :: cs ++ '\n' :: more) = (quoted (c :: cs)).map (goOn more) := by
  simp only [List.cons_append, quoted, splitQuoted_append_newline]
  cases splitQuoted cs with
  | none => rfl
  | some l =>
    simp only [Option.map_some, goOn]
    cases Quoted.ofChars (c :: l.1) <;> rfl

theorem bool_append_newline (cs : List Char) :
    bool (cs ++ '\n' :: more) = (bool cs).map (goOn more) := by
  obtain ⟨htake, hdrop⟩ := takeWhile_append_newline more (p := isWordChar) rfl cs
  simp only [bool, htake, hdrop]
  split <;> rfl

theorem number_append_newline (cs : List Char) :
    number (cs ++ '\n' :: more) = (number cs).map fun (k, l) => (k, goOn more l) := by
  obtain ⟨htake, hdrop⟩ := takeWhile_append_newline more (p := isNumberChar) rfl cs
  simp only [number, htake, hdrop]
  split <;> rfl

theorem identifier_append_newline (cs : List Char) :
    identifier (cs ++ '\n' :: more) = (identifier cs).map (goOn more) := by
  obtain ⟨htake, hdrop⟩ := takeWhile_append_newline more (p := isIdentifierChar) rfl cs
  simp only [identifier, htake, hdrop]
  split <;> rfl

theorem scalar_append_newline (cs : List Char) :
    scalar (cs ++ '\n' :: more) = (scalar cs).map fun (k, l) => (k, goOn more l) := by
  unfold scalar
  simp only [head?_append_newline more (by decide : '"' ≠ '\n'),
    head?_append_newline more (by decide : 't' ≠ '\n'),
    head?_append_newline more (by decide : 'f' ≠ '\n')]
  split
  · next hhead =>
    obtain ⟨cs, rfl⟩ := List.head?_eq_some_iff.mp hhead
    rw [quoted_append_newline]
    cases quoted ('"' :: cs) <;> rfl
  · split
    · rw [bool_append_newline]
      cases bool cs <;> rfl
    · exact number_append_newline cs

/-- Only at the end of a text does another line put a line feed behind a character. -/
theorem eq_nil_of_append_newline {cs tail : List Char} (hcs : ∀ tail, cs = '\n' :: tail → False)
    (h : cs ++ '\n' :: more = '\n' :: tail) : cs = [] := by
  cases cs with
  | nil => rfl
  | cons c cs =>
    cases h
    exact (hcs cs rfl).elim

theorem comma_of_append_newline {cs tail : List Char}
    (h : cs ++ '\n' :: more = ',' :: ' ' :: tail) : ∃ tail', cs = ',' :: ' ' :: tail' := by
  match cs, h with
  | [], h => cases h
  | [_], h => cases h
  | _ :: _ :: tail', h =>
    cases h
    exact ⟨tail', rfl⟩

theorem scalarStart?_append_newline (cs : List Char) :
    scalarStart? (cs ++ '\n' :: more) = scalarStart? cs := by
  cases cs <;> rfl

theorem elementStart?_append_newline (cs : List Char) :
    elementStart? (cs ++ '\n' :: more) = elementStart? cs := by
  cases cs <;> rfl

end Lexeme

/-- The cursor in a text that goes on with another line, which begins at `d`. -/
def Cursor.extend (c d : Cursor) : Cursor := ⟨c.rest ++ '\n' :: d.rest, c.position⟩

/-- The cursor is in a text behind which another line begins at `d`. -/
structure Cursor.Before (c : Cursor) (text : List Char) (d : Cursor) : Prop where
  suffix : c.rest <:+ text
  place : d.position = (c.position.advance c.rest).step '\n'

/-- A scan in a text, and the scan in that text where another line begins at `d` behind it. -/
inductive Scan.Continued (text : List Char) (d : Cursor) : Scan → Scan → Prop
  | finish (p : Position) : Continued text d (.ofToken (.finish p)) (.resumeAt d)
  | resume (h : Cursor.Before c text d) : Continued text d (.resumeAt c) (.resumeAt (c.extend d))
  | fault (f : Fault) (p : Position) : Continued text d (.ofFault f p) (.ofFault f p)
  | mended (h : f = .unterminatedRaw ∨ text.getLast? = some '\r') (p : Position) (s : Scan) :
    Continued text d (.ofFault f p) s
  | cons (t : Token) (H : Continued text d s s') : Continued text d (.cons t s) (.cons t s')

namespace Cursor

variable {c c' d : Cursor} {text part : List Char}

@[simp] theorem extend_rest (c d : Cursor) : (c.extend d).rest = c.rest ++ '\n' :: d.rest := rfl

@[simp] theorem extend_position (c d : Cursor) : (c.extend d).position = c.position := rfl

@[simp] theorem behind_extend (c d : Cursor) (part rest : List Char) :
    (c.extend d).behind part (rest ++ '\n' :: d.rest) = (c.behind part rest).extend d := rfl

@[simp] theorem token_extend (c d : Cursor) (k : Token.Kind) (part rest : List Char) :
    (c.extend d).token k part (rest ++ '\n' :: d.rest) =
      ((c.token k part rest).1, (c.token k part rest).2.extend d) := rfl

theorem Moves.extend (h : c.Moves part c') (d : Cursor) :
    (c.extend d).Moves part (c'.extend d) := by
  refine ⟨?_, h.position⟩
  rw [Cursor.extend, h.rest, List.append_assoc]
  rfl

namespace Before

theorem behind (H : c.Before text d) (h : c.Moves part c') : c'.Before text d := by
  refine ⟨h.suffix.trans H.suffix, ?_⟩
  rw [H.place, h.rest, h.position, Position.advance_append]

/-- The text is left for the line behind it. -/
theorem moves (H : c.Before text d) : (c.extend d).Moves (c.rest ++ ['\n']) d := by
  refine ⟨by simp [extend], ?_⟩
  rw [H.place, Position.advance_append]
  rfl

theorem behind_newline (H : c.Before text d) (h : c.rest = []) :
    (c.extend d).behind ['\n'] d.rest = d := by
  have hmoves := H.moves
  rw [h] at hmoves
  exact (hmoves.eq_behind).symm

/-- At a carriage return that nothing follows, the text ends in one. -/
theorem getLast?_return (H : c.Before text d) (h : c.rest = ['\r']) :
    text.getLast? = some '\r' := by
  obtain ⟨front, rfl⟩ := H.suffix
  simp [h]

end Before

/-! ### Scalars -/

/-- A scalar, with what follows it in the text that goes on. -/
def extendScalar (d : Cursor) (r : Except (Fault × Position) (Token × Cursor)) :
    Except (Fault × Position) (Token × Cursor) :=
  r.map fun (t, c) => (t, c.extend d)

theorem scalar_extend (c d : Cursor) : (c.extend d).scalar = extendScalar d c.scalar := by
  unfold scalar
  rw [extend, Lexeme.scalar_append_newline]
  cases Lexeme.scalar c.rest <;> rfl

theorem scalarBehind_extend (last : Position) (c d : Cursor) :
    (c.extend d).scalarBehind last = extendScalar d (c.scalarBehind last) := by
  unfold scalarBehind
  rw [extend, Lexeme.scalarStart?_append_newline]
  split
  · rfl
  · exact scalar_extend c d

theorem elementBehind_extend (last : Position) (c d : Cursor) :
    (c.extend d).elementBehind last = extendScalar d (c.elementBehind last) := by
  unfold elementBehind
  rw [extend, Lexeme.elementStart?_append_newline]
  split
  · rfl
  · exact scalar_extend c d

/-! ### Scans -/

open Scan (Continued)

theorem continued_afterValue (H : c.Before text d) (last : Position) :
    Continued text d (c.afterValue last) ((c.extend d).afterValue last) := by
  unfold afterValue
  split
  · next hrest =>
    simp only [extend_rest, hrest, List.nil_append, H.behind_newline hrest]
    exact .finish _
  · next cs hrest =>
    simp only [extend_rest, hrest, List.cons_append, behind_extend]
    exact .resume (H.behind (.behind (s := ['\n']) hrest))
  · next cs hrest =>
    simp only [extend_rest, hrest, List.cons_append, behind_extend]
    exact .resume (H.behind (.behind (s := ['\r', '\n']) hrest))
  · next a cs hn hr hrest =>
    simp only [extend_rest, hrest, List.cons_append]
    split
    · next heq => cases heq
    · next heq =>
      cases heq
      exact (hn rfl).elim
    · next heq =>
      obtain ⟨rfl, htail⟩ := List.cons.inj heq
      obtain rfl := Lexeme.eq_nil_of_append_newline (hr · rfl) htail
      exact .mended (.inr (H.getLast?_return hrest)) _ _
    · next heq =>
      cases heq
      exact .fault _ _

theorem continued_afterElements (H : c.Before text d) (last : Position) :
    Continued text d (c.afterElements last) ((c.extend d).afterElements last) := by
  unfold afterElements
  split
  · next cs hrest =>
    simp only [extend_rest, hrest, List.cons_append, token_extend]
    exact .cons _ (continued_afterValue (H.behind (.behind (s := [']']) hrest)) _)
  · next cs hrest =>
    simp only [extend_rest, hrest, List.cons_append, token_extend]
    exact .cons _ (.fault _ _)
  all_goals
    next hrest =>
      simp only [extend_rest, hrest, List.cons_append, List.nil_append]
      exact .fault _ _

theorem continued_elements (H : c.Before text d) (last : Position) :
    Continued text d (c.elements last) ((c.extend d).elements last) := by
  fun_induction elements last c with
  | case1 last c f p h =>
    have helem := elementBehind_extend last c d
    rw [h] at helem
    rw [elements_error helem]
    exact .fault _ _
  | case2 last c t c' h cs hrest ih =>
    obtain ⟨part, x, ht⟩ := isScalar_of_elementBehind h
    have helem := elementBehind_extend last c d
    rw [h] at helem
    have hcomma : c'.Moves [',', ' '] (c'.behind [',', ' '] cs) := .behind hrest
    rw [elements_comma helem (hcomma.extend d)]
    exact .cons _ (.cons _ (ih ((H.behind ht.moves).behind hcomma)))
  | case3 last c t c' h hne =>
    obtain ⟨part, x, ht⟩ := isScalar_of_elementBehind h
    have helem := elementBehind_extend last c d
    rw [h] at helem
    rw [elements_eq helem]
    refine .cons _ ?_
    split
    · next hcomma =>
      obtain ⟨cs, hcs⟩ := Lexeme.comma_of_append_newline hcomma
      exact (hne cs hcs).elim
    · exact continued_afterElements (H.behind ht.moves) _

theorem continued_value (H : c.Before text d) (last : Position) :
    Continued text d (c.value last) ((c.extend d).value last) := by
  by_cases hlist : c.rest.head? = some '['
  · obtain ⟨cs, hrest⟩ := List.head?_eq_some_iff.mp hlist
    have hopen : c.Moves ['['] (c.behind ['['] cs) := .behind hrest
    rw [value_list hopen, value_list (hopen.extend d)]
    exact .cons _ (continued_elements (H.behind hopen) _)
  by_cases hback : c.rest.head? = some Lexeme.backTick
  · obtain ⟨cs, hrest⟩ := List.head?_eq_some_iff.mp hback
    cases hraw : Lexeme.raw c.rest with
    | error f =>
      rw [value_backTick hrest, hraw]
      exact .mended (.inl (Lexeme.raw_error hraw)) _ _
    | ok l =>
      obtain ⟨part, rest⟩ := l
      have hmoves : c.Moves part (c.behind part rest) := .behind (Lexeme.append_of_raw hraw).1.symm
      rw [hrest] at hraw
      obtain ⟨s, rfl, hs⟩ := Lexeme.raw_sound hraw
      rw [value_raw hs hmoves, value_raw hs (hmoves.extend d)]
      exact .cons _ (continued_afterValue (H.behind hmoves) _)
  rw [value_of_head? hlist hback, value_of_head?, scalarBehind_extend]
  · cases h : c.scalarBehind last with
    | error e => exact .fault _ _
    | ok s =>
      obtain ⟨part, x, ht⟩ := isScalar_of_scalarBehind h
      exact .cons _ (continued_afterValue (H.behind ht.moves) _)
  · rwa [extend_rest, ne_eq, Lexeme.head?_append_newline _ (by decide)]
  · rwa [extend_rest, ne_eq, Lexeme.head?_append_newline _ (by decide)]

theorem continued_afterIdentifier (H : c.Before text d) (last : Position) :
    Continued text d (c.afterIdentifier last) ((c.extend d).afterIdentifier last) := by
  have hbare : Continued text d c.bareMarker (c.extend d).bareMarker :=
    .cons _ (.cons _ (continued_afterValue H _))
  unfold afterIdentifier
  split
  · next cs hrest =>
    simp only [extend_rest, hrest, List.cons_append, token_extend]
    exact .cons _ (continued_value (H.behind (.behind (s := ['=']) hrest)) _)
  · next hrest =>
    simp only [extend_rest, hrest, List.nil_append]
    exact hbare
  · next hrest =>
    simp only [extend_rest, hrest, List.cons_append]
    exact hbare
  · next hrest =>
    simp only [extend_rest, hrest, List.cons_append]
    exact hbare
  · next a cs h1 h2 h3 hrest =>
    simp only [extend_rest, hrest, List.cons_append]
    split
    · next heq =>
      cases heq
      exact (h1 rfl).elim
    · next heq => cases heq
    · next heq =>
      cases heq
      exact (h2 rfl).elim
    · next heq =>
      obtain ⟨rfl, htail⟩ := List.cons.inj heq
      obtain rfl := Lexeme.eq_nil_of_append_newline (h3 · rfl) htail
      exact .mended (.inr (H.getLast?_return hrest)) _ _
    · next heq =>
      cases heq
      exact .fault _ _

theorem continued_marker (H : c.Before text d) :
    Continued text d c.marker (c.extend d).marker := by
  unfold marker
  rw [extend_rest, Lexeme.identifier_append_newline]
  cases h : Lexeme.identifier c.rest with
  | error f => exact .fault _ _
  | ok l =>
    obtain ⟨part, rest⟩ := l
    have hmoves : c.Moves part (c.behind part rest) :=
      .behind (Lexeme.append_of_identifier h).1.symm
    exact .cons _ (continued_afterIdentifier (H.behind hmoves) _)

/-! ### Lines -/

/-- A last line of prose is left for the line behind it. -/
theorem tokens_extend_prose (H : c.Before text d) (h : IsProse c.rest) :
    (c.extend d).tokens = d.tokens := by
  obtain ⟨c', hmoves, htokens⟩ := tokens_proseLine (c := c.extend d) h rfl
  rw [htokens, hmoves.unique H.moves]

/-- A line that starts a marker is scanned as one, whatever line follows. -/
theorem continued_scan_marker (H : c.Before text d) (hstart : StartsMarker c.rest) :
    Continued text d c.scan (c.extend d).scan := by
  obtain ⟨indent, l, cs, hindent, hrest, hl⟩ := hstart
  obtain ⟨c1, hmoves, hscan⟩ := scan_marker hindent hrest hl
  have hextend : (c.extend d).rest = indent ++ '+' :: l :: (cs ++ '\n' :: d.rest) := by
    rw [extend_rest, hrest, List.append_assoc]
    rfl
  obtain ⟨c2, hmoves', hscan'⟩ := scan_marker hindent hextend hl
  rw [hscan, hscan', hmoves'.unique (hmoves.extend d)]
  exact .cons _ (continued_marker (H.behind hmoves))

end Cursor

/-- The tokens of a text, and those of the text where another line begins at `d` behind it. -/
inductive Token.Continued (text : List Char) (d : Cursor) : List Token → List Token → Prop
  | finish (p : Position) : Continued text d [.finish p] d.tokens
  | fault (h : t.kind = .fault) : Continued text d [t] [t]
  | mended (ht : t.kind = .fault)
    (h : t.text = Fault.unterminatedRaw.message ∨ text.getLast? = some '\r') (ts : List Token) :
    Continued text d [t] ts
  | cons (t : Token) (H : Continued text d ts ts') : Continued text d (t :: ts) (t :: ts')

theorem Scan.Continued.all {text : List Char} {d : Cursor} {s s' : Scan}
    (H : Scan.Continued text d s s') (hresume : ∀ c, s.resume = some c → c.Before text d →
      Token.Continued text d c.tokens (c.extend d).tokens) :
    Token.Continued text d s.all s'.all := by
  induction H with
  | finish p => exact .finish p
  | resume h => exact hresume _ rfl h
  | fault => exact .fault rfl
  | mended h => exact .mended rfl (h.imp_left (congrArg Fault.message)) _
  | cons t _ ih =>
    rw [Scan.all_cons, Scan.all_cons]
    exact .cons t (ih hresume)

/-- The tokens of a text stay when it goes on with another line. -/
theorem Cursor.continued_tokens {text : List Char} {c d : Cursor} (H : c.Before text d) :
    Token.Continued text d c.tokens (c.extend d).tokens := by
  induction hn : c.rest.length using Nat.strong_induction_on generalizing c with
  | _ n ih =>
    by_cases hstart : StartsMarker c.rest
    · rw [tokens_eq, tokens_eq]
      refine (continued_scan_marker H hstart).all fun c' hresume H' => ?_
      exact ih _ (hn ▸ length_resume_scan hresume) H' rfl
    · have hline := c.lineStart
      rw [tokens_eq c]
      generalize c.scan = scan at hline ⊢
      cases hline with
      | finish hindent =>
        rw [tokens_extend_prose H hindent.isProse]
        exact .finish _
      | marker _ _ h => exact absurd h hstart
      | @prose line c' hmoves hend hline _ =>
        have hrest : c.rest = line := by rw [hmoves.rest, hend, List.append_nil]
        rw [tokens_extend_prose H ⟨hrest ▸ hline, hstart⟩, Scan.all_resumeAt,
          tokens_of_rest_nil hend]
        exact .finish _
      | @proseLine line c' hmoves hline _ =>
        have hrest : (c.extend d).rest = line ++ '\n' :: (c'.extend d).rest := by
          rw [(hmoves.extend d).rest, List.append_assoc]
          rfl
        have hprose : IsProse line := by
          rw [hmoves.rest, List.append_assoc] at hstart
          exact isProse_of_not_startsMarker hline hstart
        obtain ⟨c'', hmoves', htokens⟩ := tokens_proseLine hprose hrest
        rw [htokens, hmoves'.unique (hmoves.extend d)]
        exact ih _ (hn ▸ hmoves.length_lt (by simp)) (H.behind hmoves) rfl

end Markers
