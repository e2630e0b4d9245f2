import Markers.Proofs.Grammar.Soundness

/-!
# What is in the grammar parses

A text of the grammar is scanned into tokens that read as what the grammar says it means. With the
other direction, parsing accepts exactly the blocks of the grammar.
-/

namespace Markers

open Grammar

/-- The text ends here, or its line does. -/
def Lexeme.EndsLine (rest : List Char) : Prop :=
  rest = [] ∨ ∃ e more, IsLineEnd e ∧ rest = e ++ more

namespace Lexeme

theorem EndsLine.cases {rest : List Char} (h : EndsLine rest) :
    rest = [] ∨ (∃ cs, rest = '\n' :: cs) ∨ ∃ cs, rest = '\r' :: '\n' :: cs := by
  rcases h with rfl | ⟨e, more, rfl | rfl, rfl⟩
  · exact .inl rfl
  · exact .inr (.inl ⟨more, rfl⟩)
  · exact .inr (.inr ⟨more, rfl⟩)

/-- No lexeme of one line goes on where the line ends. -/
theorem EndsLine.head {rest : List Char} (h : EndsLine rest) :
    ∀ c ∈ rest.head?, c = '\n' ∨ c = '\r' := by
  rcases h.cases with rfl | ⟨cs, rfl⟩ | ⟨cs, rfl⟩ <;> simp

theorem EndsLine.closed {rest : List Char} (h : EndsLine rest) : Closed rest := by
  intro c hc
  rcases h.head c hc with rfl | rfl <;> exact ⟨rfl, rfl⟩

theorem identifier_complete {name rest : List Char} {i : Identifier}
    (h : Identifier.ofChars name = .ok i) (hrest : ∀ c ∈ rest.head?, isIdentifierChar c = false) :
    identifier (name ++ rest) = .ok (name, rest) := by
  obtain ⟨htake, hdrop⟩ := takeWhile_eq_nil_of_head? hrest
  have hchars := Identifier.isIdentifierChar_of_ofChars h
  rw [identifier, List.takeWhile_append_of_pos hchars, List.dropWhile_append_of_pos hchars, htake,
    hdrop, List.append_nil, h]

end Lexeme

namespace Cursor

variable {c c' c'' : Cursor} {last start : Position} {t : List Char} {x : Literal}
  {xs : List Literal}

theorem elements_error {f : Fault} {p : Position} (h : c.elementBehind last = .error (f, p)) :
    c.elements last = .ofFault f p := by
  rw [elements]
  split
  · next herror =>
    rw [h] at herror
    cases herror
    rfl
  · next hok =>
    rw [h] at hok
    cases hok

theorem elements_eq {s : Token} (h : c.elementBehind last = .ok (s, c')) :
    c.elements last = .cons s (match c'.rest with
      | ',' :: ' ' :: cs =>
        .cons (c'.token .comma [','] (' ' :: cs)).1 ((c'.behind [',', ' '] cs).elements c'.position)
      | _ => c'.afterElements s.position) := by
  rw [elements]
  split
  · next herror =>
    rw [h] at herror
    cases herror
  · next hok =>
    rw [h] at hok
    cases hok
    split
    · next hcomma =>
      rw [hcomma]
      rfl
    · next hne =>
      split
      · next hcomma => exact absurd hcomma (hne _)
      · rfl

theorem elements_comma {s : Token} (h : c.elementBehind last = .ok (s, c'))
    (hmoves : c'.Moves [',', ' '] c'') :
    c.elements last = .cons s (.cons (c'.token .comma [','] (' ' :: c''.rest)).1
      (c''.elements c'.position)) := by
  have hrest : c'.rest = ',' :: ' ' :: c''.rest := hmoves.rest
  rw [elements_eq h, hrest, hmoves.eq_behind]
  rfl

theorem elements_close {s : Token} (h : c.elementBehind last = .ok (s, c'))
    (hmoves : c'.Moves [']'] c'') :
    c.elements last = .cons s (.cons (c'.token .listClose [']'] c''.rest).1
      (c''.afterValue c'.position)) := by
  have hrest : c'.rest = ']' :: c''.rest := hmoves.rest
  have hclose : c'.afterElements s.position =
      .cons (c'.token .listClose [']'] c''.rest).1 (c''.afterValue c'.position) := by
    simp only [afterElements, hrest, token, ← hmoves.eq_behind]
  rw [elements_eq h, ← hclose, hrest]
  rfl

theorem closed_of_moves {a : Char} {cs : List Char} (h : c.Moves (a :: cs) c')
    (hword : Lexeme.isWordChar a = false) (hnumber : Lexeme.isNumberChar a = false) :
    Lexeme.Closed c.rest := by
  rw [h.rest]
  rintro _ ⟨⟩
  exact ⟨hword, hnumber⟩

/-- The elements of a list are read as the grammar says. -/
theorem elementsOfTokens_elements (h : Scalars t xs) (hmoves : c.Moves (t ++ [']']) c')
    (last : Position) :
    ∃ p, Literal.elementsOfTokens (c.elements last).all = .ok (xs, (c'.afterValue p).all) := by
  induction h generalizing c last with
  | one h =>
    obtain ⟨c1, hscalar, hclose⟩ := hmoves.split
    have hclosed := closed_of_moves hclose rfl rfl
    obtain ⟨s, hs, hliteral⟩ := elementBehind_of_moves h hscalar hclosed last
    refine ⟨c1.position, ?_⟩
    rw [elements_close hs hclose, Scan.all_cons, Scan.all_cons,
      Literal.elementsOfTokens_close hliteral rfl]
  | @cons t x ts xs h _ ih =>
    rw [List.append_assoc] at hmoves
    obtain ⟨c1, hscalar, hmoves⟩ := hmoves.split
    obtain ⟨c2, hcomma, hmoves⟩ := Moves.split (s := [',', ' ']) hmoves
    have hclosed := closed_of_moves hcomma rfl rfl
    obtain ⟨s, hs, hliteral⟩ := elementBehind_of_moves h hscalar hclosed last
    obtain ⟨p, hp⟩ := ih hmoves c1.position
    refine ⟨p, ?_⟩
    rw [elements_comma hs hcomma, Scan.all_cons, Scan.all_cons,
      Literal.elementsOfTokens_comma hliteral rfl, hp]
    rfl

theorem value_scalar (h : Scalar t x) (hmoves : c.Moves t c') (hend : Lexeme.Closed c'.rest)
    (last : Position) :
    ∃ s, s.literal = .ok x ∧ c.value last = .cons s (c'.afterValue s.position) := by
  obtain ⟨s, hs, hliteral⟩ := scalarBehind_of_moves h hmoves hend last
  obtain ⟨a, cs, rfl, ha⟩ := h.head
  have hrest : c.rest = a :: (cs ++ c'.rest) := hmoves.rest
  refine ⟨s, hliteral, ?_⟩
  unfold value
  split
  · next hopen =>
    rw [hrest] at hopen
    exact absurd (List.cons.inj hopen).1 (ne_of_class ha rfl)
  · next htick =>
    rw [hrest] at htick
    exact absurd (List.cons.inj htick).1 (ne_of_class ha rfl)
  · simp only [hs]

/-- A value that is neither a list nor a text between back-ticks is a scalar, if it is one. -/
theorem value_of_head? (hlist : c.rest.head? ≠ some '[')
    (hraw : c.rest.head? ≠ some Lexeme.backTick) (last : Position) :
    c.value last = match c.scalarBehind last with
      | .error (f, p) => .ofFault f p
      | .ok (t, c') => .cons t (c'.afterValue t.position) := by
  unfold value
  split
  · next hrest => exact absurd (congrArg List.head? hrest) hlist
  · next hrest => exact absurd (congrArg List.head? hrest) hraw
  · rfl

theorem value_backTick {cs : List Char} (hrest : c.rest = Lexeme.backTick :: cs) (last : Position) :
    c.value last = match Lexeme.raw c.rest with
      | .error f => .ofFault f c.position
      | .ok (part, rest) =>
        .cons (c.token .string part rest).1 ((c.behind part rest).afterValue c.position) := by
  unfold value
  split
  · next hopen =>
    rw [hrest] at hopen
    cases hopen
  · rfl
  · next hne => exact absurd hrest (hne _)

theorem value_raw {s : List Char} (h : Lexeme.backTick ∉ s)
    (hmoves : c.Moves (Lexeme.backTick :: (s ++ [Lexeme.backTick])) c') :
    c.value last =
      .cons ⟨.string, String.ofList (Lexeme.backTick :: (s ++ [Lexeme.backTick])), c.position⟩
        (c'.afterValue c.position) := by
  have hrest : c.rest = Lexeme.backTick :: (s ++ Lexeme.backTick :: c'.rest) := by
    simpa using hmoves.rest
  have hraw : Lexeme.raw c.rest = .ok (Lexeme.backTick :: (s ++ [Lexeme.backTick]), c'.rest) := by
    simp only [hrest, Lexeme.raw, Lexeme.splitRaw_complete h]
  rw [value_backTick hrest, hraw]
  simp only [token, ← hmoves.eq_behind]

theorem value_list (hmoves : c.Moves ['['] c') :
    c.value last = .cons (c.token .listOpen ['['] c'.rest).1 (c'.elements c.position) := by
  have hrest : c.rest = '[' :: c'.rest := hmoves.rest
  simp only [value, hrest, token, ← hmoves.eq_behind]

/-- A value is read as the grammar says. -/
theorem ofTokens_value (h : Value t x) (hmoves : c.Moves t c') (hend : Lexeme.Closed c'.rest)
    (last : Position) :
    ∃ p, Literal.ofTokens (c.value last).all = .ok (x, (c'.afterValue p).all) := by
  cases h with
  | scalar h =>
    obtain ⟨s, hliteral, hvalue⟩ := value_scalar h hmoves hend last
    exact ⟨s.position, by rw [hvalue, Scan.all_cons, Literal.ofTokens_scalar hliteral]⟩
  | raw h =>
    refine ⟨c.position, ?_⟩
    rw [value_raw h hmoves, Scan.all_cons, Literal.ofTokens_scalar Token.literal_raw]
  | list h =>
    obtain ⟨c1, hopen, hmoves⟩ := Moves.split (s := ['[']) hmoves
    obtain ⟨p, hp⟩ := elementsOfTokens_elements h hmoves c.position
    refine ⟨p, ?_⟩
    rw [value_list hopen, Scan.all_cons, Literal.ofTokens_listOpen rfl, hp]
    rfl

theorem afterIdentifier_bare (h : Lexeme.EndsLine c.rest) :
    c.afterIdentifier last = c.bareMarker := by
  rcases h.cases with hrest | ⟨cs, hrest⟩ | ⟨cs, hrest⟩ <;> simp only [afterIdentifier, hrest]

theorem afterIdentifier_assign (hmoves : c.Moves ['='] c') :
    c.afterIdentifier last = .cons (c.token .assign ['='] c'.rest).1 (c'.value c.position) := by
  have hrest : c.rest = '=' :: c'.rest := hmoves.rest
  simp only [afterIdentifier, hrest, token, ← hmoves.eq_behind]

/-- What stands behind an identifier is read as the grammar says. -/
theorem behindPlus_assigned {i : Token} {name : Identifier} (hi : i.kind = .identifier)
    (hn : Identifier.parse i.text = .ok name) (ht : Assigned t x) (hmoves : c.Moves t c')
    (hend : Lexeme.EndsLine c'.rest) (start last : Position) :
    ∃ p, Marker.behindPlus start (i :: (c.afterIdentifier last).all) =
      .ok (⟨name, x, start⟩, (c'.afterValue p).all) := by
  cases ht with
  | bare =>
    obtain rfl : c' = c := hmoves.eq_of_nil
    refine ⟨c'.position, ?_⟩
    rw [afterIdentifier_bare hend, bareMarker, Scan.all_cons, Scan.all_cons,
      Marker.behindPlus_assign hi hn rfl, Literal.ofTokens_scalar Token.literal_true]
    rfl
  | value h =>
    obtain ⟨c1, hassign, hmoves⟩ := Moves.split (s := ['=']) hmoves
    obtain ⟨p, hp⟩ := ofTokens_value h hmoves hend.closed c.position
    refine ⟨p, ?_⟩
    rw [afterIdentifier_assign hassign, Scan.all_cons, Marker.behindPlus_assign hi hn rfl, hp]
    rfl

/-- A marker is read as the grammar says behind its plus sign. -/
theorem behindPlus_marker {name : List Char} {i : Identifier}
    (hname : Identifier.ofChars name = .ok i) (ht : Assigned t x) (hmoves : c.Moves (name ++ t) c')
    (hend : Lexeme.EndsLine c'.rest) (start : Position) :
    ∃ p, Marker.behindPlus start c.marker.all = .ok (⟨i, x, start⟩, (c'.afterValue p).all) := by
  obtain ⟨c1, hfront, hmoves⟩ := hmoves.split
  have hfollow : ∀ a ∈ c1.rest.head?, Lexeme.isIdentifierChar a = false := by
    rw [hmoves.rest]
    cases ht with
    | bare =>
      intro a ha
      rcases hend.head a ha with rfl | rfl <;> rfl
    | value =>
      rintro a ⟨⟩
      rfl
  have hidentifier := Lexeme.identifier_complete hname hfollow
  rw [← hfront.rest] at hidentifier
  have hparse := Identifier.parse_ofList hname
  simp only [marker, hidentifier, token, ← hfront.eq_behind, Scan.all_cons]
  exact behindPlus_assigned (i := ⟨.identifier, String.ofList name, c.position⟩) rfl hparse ht
    hmoves hend start c.position

theorem all_afterValue_nil (hrest : c.rest = []) :
    (c.afterValue last).all = [.finish c.position] := by
  simp only [afterValue, hrest, Scan.all_ofToken]

theorem all_afterValue_lineEnd {e : List Char} (he : IsLineEnd e) (hmoves : c.Moves e c') :
    (c.afterValue last).all = c'.tokens := by
  rcases he with rfl | rfl
  all_goals
    have hrest := hmoves.rest
    simp only [List.cons_append, List.nil_append] at hrest
    simp only [afterValue, hrest, ← hmoves.eq_behind, Scan.all_resumeAt]

/-- A marker is read as the grammar says, with its indentation. -/
theorem listOfTokens_segment {before : List Char} {m : Marker} (h : Segment before t m)
    (hc : c.position = .endOf before) (hmoves : c.Moves t c') (hend : Lexeme.EndsLine c'.rest) :
    ∃ p, Marker.listOfTokens c.tokens =
      (Marker.listOfTokens (c'.afterValue p).all).map (m :: ·) := by
  cases h with
  | @mk indent name t _ hindent hname ht hplace =>
    obtain ⟨l, ls, rfl, hl⟩ := Identifier.head_of_ofChars hname
    have hrest : c.rest = indent ++ '+' :: l :: (ls ++ (t ++ c'.rest)) := by
      simpa using hmoves.rest
    obtain ⟨c1, hplus, hscan⟩ := scan_marker hindent hrest hl
    have hmarker : c1.Moves (l :: ls ++ t) c' := by
      refine ⟨?_, ?_⟩
      · have heq := hplus.rest
        rw [hrest] at heq
        simpa using heq.symm
      · rw [hmoves.position, hplus.position, ← Position.advance_append]
        simp
    obtain ⟨p, hp⟩ := behindPlus_marker hname ht hmarker hend (c.position.advance indent)
    refine ⟨p, ?_⟩
    rw [tokens_eq, hscan, Scan.all_cons, Marker.listOfTokens_plus rfl, hp, hc,
      Position.advance_endOf, ← hplace]
    rfl

/-- Prose at the end of a text holds no marker. -/
theorem listOfTokens_prose (h : IsProse c.rest) : Marker.listOfTokens c.tokens = .ok [] := by
  have hline := c.lineStart
  rw [tokens_eq]
  generalize c.scan = scan at hline ⊢
  cases hline with
  | finish => exact Marker.listOfTokens_finish rfl
  | marker _ _ hstart => exact absurd hstart h.2
  | prose _ hend =>
    rw [Scan.all_resumeAt, tokens_of_rest_nil hend, Marker.listOfTokens_finish rfl]
  | proseLine hmoves =>
    refine absurd ?_ h.1
    simp [hmoves.rest]

/-- A line of prose is left out. -/
theorem scan_proseLine {ts : List Char} (h : IsProse t) (hrest : c.rest = t ++ '\n' :: ts) :
    ∃ c', c.Moves (t ++ ['\n']) c' ∧ c.scan = .resumeAt c' := by
  have hline := c.lineStart
  generalize c.scan = scan at hline ⊢
  cases hline with
  | finish hindent =>
    refine absurd ?_ hindent.newline_not_mem
    simp [hrest]
  | marker _ _ hstart =>
    rw [hrest] at hstart
    exact absurd hstart (h.not_startsMarker ts)
  | prose hmoves hend hn =>
    refine absurd ?_ hn
    rw [hmoves.rest, hend, List.append_nil] at hrest
    simp [hrest]
  | @proseLine line c' hmoves hn =>
    have heq := hmoves.rest
    rw [hrest, List.append_assoc] at heq
    obtain ⟨rfl, -⟩ := append_newline_inj h.1 hn heq
    exact ⟨c', hmoves, rfl⟩

theorem tokens_proseLine {ts : List Char} (h : IsProse t) (hrest : c.rest = t ++ '\n' :: ts) :
    ∃ c', c.Moves (t ++ ['\n']) c' ∧ c.tokens = c'.tokens := by
  obtain ⟨c', hmoves, hscan⟩ := scan_proseLine h hrest
  refine ⟨c', hmoves, ?_⟩
  rw [tokens_eq, hscan, Scan.all_resumeAt]

/-- A block of the grammar is read as its markers. -/
theorem tokens_of_block {before text : List Char} {ms : List Marker} (H : Block before text ms)
    (hc : c.position = .endOf before) (hrest : c.rest = text) :
    Marker.listOfTokens c.tokens = .ok ms := by
  induction H generalizing c with
  | prose h => exact listOfTokens_prose (hrest ▸ h)
  | proseLine h _ ih =>
    obtain ⟨c', hmoves, htokens⟩ := tokens_proseLine h hrest
    have hts := hmoves.rest
    rw [hrest, List.append_assoc] at hts
    rw [htokens]
    exact ih (hmoves.endOf hc) (List.cons.inj (List.append_cancel_left hts)).2.symm
  | segment h =>
    obtain ⟨c', hmoves, hend⟩ : ∃ c', c.Moves _ c' ∧ c'.rest = [] :=
      ⟨_, .behind (hrest.trans (List.append_nil _).symm), rfl⟩
    obtain ⟨p, hp⟩ := listOfTokens_segment h hc hmoves (.inl hend)
    rw [hp, all_afterValue_nil hend, Marker.listOfTokens_finish rfl]
    rfl
  | @segmentLine before t m e ts ms h he _ ih =>
    obtain ⟨c1, hmoves, hend⟩ : ∃ c1, c.Moves t c1 ∧ c1.rest = e ++ ts := ⟨_, .behind hrest, rfl⟩
    obtain ⟨c2, hlast, hts⟩ : ∃ c2, c1.Moves e c2 ∧ c2.rest = ts := ⟨_, .behind hend, rfl⟩
    obtain ⟨p, hp⟩ := listOfTokens_segment h hc hmoves (.inr ⟨e, ts, he, hend⟩)
    rw [hp, all_afterValue_lineEnd he hlast, ih ((hmoves.trans hlast).endOf hc) hts]
    rfl

end Cursor

/-- Parsing accepts the blocks of the grammar, and gives each of them its markers. -/
theorem Marker.parse_eq_ok_iff (text : String) (ms : List Marker) :
    Marker.parse text = .ok ms ↔ Grammar.Block [] text.toList ms :=
  ⟨Cursor.block_of_tokens Position.endOf_nil.symm,
    fun H => Cursor.tokens_of_block H Position.endOf_nil.symm rfl⟩

namespace Marker

theorem toList_assignment (name text : String) :
    ("+" ++ name ++ "=" ++ text).toList = '+' :: (name.toList ++ '=' :: text.toList) := by
  simp only [String.toList_append, List.append_assoc]
  rfl

/-- A marker on a line of its own is read. -/
theorem parse_of_value {name text : String} {i : Identifier} {x : Literal}
    (hname : Identifier.parse name = .ok i) (hvalue : Grammar.Value text.toList x) :
    parse ("+" ++ name ++ "=" ++ text) = .ok [⟨i, x, .start⟩] := by
  have H : Grammar.Block [] ([] ++ '+' :: (name.toList ++ '=' :: text.toList)) [⟨i, x, .start⟩] :=
    .segment (.mk Grammar.isIndent_nil hname (.value hvalue) rfl)
  exact Cursor.tokens_of_block H rfl (toList_assignment name text)

end Marker

end Markers
