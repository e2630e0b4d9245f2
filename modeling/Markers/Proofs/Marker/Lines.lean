import Markers.Proofs.Marker.Announcement
import Markers.Proofs.Token.Cut
import Markers.Proofs.Token.Down

/-!
# Parsing line by line

A text that parses is forgotten at its end: what another line behind it parses as does not depend
on it, but for the lines that are counted. A fault is never mended by the lines behind it, except
where it was the end of the text that made it one.

The readers of tokens carry this. Each reads a front of the tokens, and it reads it alike wherever it
stands and whatever follows (`behindPlus_front`).
-/

namespace Markers

/-- The token at another place. -/
def Token.relocate (f : Position → Position) (t : Token) : Token :=
  { t with position := f t.position }

theorem Token.relocate_id : Token.relocate id = id := rfl

variable {t : Token} {ts rest : List Token} {x : Literal} {xs : List Literal} {m : Marker}
  {ms : List Marker} {start : Position} {n : Nat}

/-- What is read is the front of the tokens, and tokens that differ from it in their places only are
read as the same. -/
def ReadsFront (read : List Token → Except ParseError (α × List Token)) (ts : List Token) (x : α)
    (rest : List Token) : Prop :=
  ∃ front, ts = front ++ rest ∧
    ∀ f more, read (front.map (Token.relocate f) ++ more) = .ok (x, more)

theorem Token.toOption_literal_relocate (t : Token) (f : Position → Position) :
    (t.relocate f).literal.toOption = t.literal.toOption := by
  have hkind : (t.relocate f).kind = t.kind := rfl
  have htext : (t.relocate f).text = t.text := rfl
  have hstring : (t.relocate f).string = t.string := rfl
  unfold literal
  rw [hkind, htext, hstring]
  split
  · split
    · rfl
    · split <;> rfl
  · split <;> rfl
  · split <;> rfl
  · split <;> rfl
  · split <;> rfl
  · rw [unexpected, unexpected]
    split <;> split <;> rfl

theorem Token.literal_relocate (h : t.literal = .ok x) (f : Position → Position) :
    (t.relocate f).literal = .ok x := by
  have hoption := t.toOption_literal_relocate f
  rw [h] at hoption
  cases hx : (t.relocate f).literal with
  | error e =>
    rw [hx] at hoption
    cases hoption
  | ok y =>
    rw [hx] at hoption
    exact congrArg Except.ok (Option.some.inj hoption)

theorem Literal.elementsOfTokens_front (h : Literal.elementsOfTokens ts = .ok (xs, rest)) :
    ReadsFront Literal.elementsOfTokens ts xs rest := by
  fun_induction Literal.elementsOfTokens ts generalizing xs with
  | case5 t s ts x hx hs =>
    cases h
    refine ⟨[t, s], rfl, fun f more => ?_⟩
    exact elementsOfTokens_close (Token.literal_relocate hx f) hs
  | case7 t s ts x hx hs ys rest' hys ih =>
    cases h
    obtain ⟨front, rfl, hfront⟩ := ih hys
    refine ⟨t :: s :: front, rfl, fun f more => ?_⟩
    have hcomma : (s.relocate f).kind = .comma := hs
    rw [List.map_cons, List.map_cons, List.cons_append, List.cons_append,
      elementsOfTokens_comma (Token.literal_relocate hx f) hcomma, hfront]
    rfl
  | _ => cases h

theorem Literal.ofTokens_front (h : Literal.ofTokens ts = .ok (x, rest)) :
    ReadsFront Literal.ofTokens ts x rest := by
  cases ts with
  | nil => cases h
  | cons t ts =>
    rw [ofTokens] at h
    split at h
    · next hopen =>
      obtain ⟨⟨xs, r⟩, hxs, heq⟩ := map_eq_ok_iff.mp h
      cases heq
      obtain ⟨front, rfl, hfront⟩ := elementsOfTokens_front hxs
      refine ⟨t :: front, rfl, fun f more => ?_⟩
      have hopen' : (t.relocate f).kind = .listOpen := hopen
      rw [List.map_cons, List.cons_append, ofTokens_listOpen hopen', hfront]
      rfl
    · obtain ⟨y, hy, heq⟩ := map_eq_ok_iff.mp h
      cases heq
      exact ⟨[t], rfl, fun f more => ofTokens_scalar (Token.literal_relocate hy f)⟩

/-- A marker is read alike wherever it stands and whatever follows. -/
theorem Marker.behindPlus_front (h : Marker.behindPlus start ts = .ok (m, rest)) :
    m.position = start ∧ ∃ front, ts = front ++ rest ∧ ∀ f start' more,
      Marker.behindPlus start' (front.map (Token.relocate f) ++ more) =
        .ok ({ m with position := start' }, more) := by
  obtain ⟨i, a, ts, rfl, hi, hname, ha, hx, hplace⟩ := behindPlus_eq_ok h
  obtain ⟨front, rfl, hfront⟩ := Literal.ofTokens_front hx
  refine ⟨hplace, i :: a :: front, rfl, fun f start' more => ?_⟩
  have hi' : (i.relocate f).kind = .identifier := hi
  have ha' : (a.relocate f).kind = .assign := ha
  rw [List.map_cons, List.map_cons, List.cons_append, List.cons_append,
    behindPlus_assign hi' hname ha', hfront]
  rfl

/-- Markers that parse are none, or there is one in front of the others. -/
theorem Marker.listOfTokens_cons_eq_ok (h : Marker.listOfTokens (t :: ts) = .ok ms) :
    t.kind = .finish ∧ ms = [] ∨ t.kind = .plus ∧ ∃ m rest ms',
      Marker.behindPlus t.position ts = .ok (m, rest) ∧ Marker.listOfTokens rest = .ok ms' ∧
        ms = m :: ms' := by
  by_cases hplus : t.kind = .plus
  · rw [listOfTokens_plus hplus] at h
    obtain ⟨⟨m, rest⟩, hm, h⟩ := bind_eq_ok_iff.mp h
    obtain ⟨ms', hms, heq⟩ := map_eq_ok_iff.mp h
    exact .inr ⟨hplus, m, rest, ms', hm, hms, heq.symm⟩
  · rw [listOfTokens] at h
    split at h
    · next hfinish =>
      cases h
      exact .inl ⟨hfinish, rfl⟩
    · next h' => exact absurd h' hplus
    · cases h

/-! ### Lines above -/

/-- Markers that parse do so further down, where they are further down. -/
theorem Marker.listOfTokens_map_down (h : Marker.listOfTokens ts = .ok ms) :
    Marker.listOfTokens (ts.map (Token.down n)) = .ok (ms.map (Marker.down n)) := by
  induction hk : ts.length using Nat.strong_induction_on generalizing ts ms with
  | _ k ih =>
    cases ts with
    | nil =>
      rw [listOfTokens] at h
      cases h
      rw [List.map_nil, listOfTokens]
      rfl
    | cons t ts =>
      rcases listOfTokens_cons_eq_ok h with
        ⟨hfinish, rfl⟩ | ⟨hplus, m, rest, ms', hm, hms, rfl⟩
      · have hfinish' : (t.down n).kind = .finish := hfinish
        rw [List.map_cons, listOfTokens_finish hfinish']
        rfl
      · have hplus' : (t.down n).kind = .plus := hplus
        obtain ⟨hplace, front, rfl, hfront⟩ := behindPlus_front hm
        have hlength : rest.length < k := by
          rw [← hk, List.length_cons, List.length_append]
          omega
        have hread : behindPlus (t.down n).position ((front ++ rest).map (Token.down n)) =
            .ok (m.down n, rest.map (Token.down n)) := by
          rw [List.map_append, Marker.down, hplace]
          exact hfront (Position.down n) (t.position.down n) _
        rw [List.map_cons, listOfTokens_plus hplus', hread]
        simp only [Except.bind, ih _ hlength hms rfl, Except.map, List.map_cons]

/-- What a text parses as where it stands further down. -/
theorem Cursor.listOfTokens_down (c : Cursor) :
    Marker.listOfTokens (c.down n).tokens =
      ((Marker.listOfTokens c.tokens).map (List.map (Marker.down n))).mapError
        (ParseError.down n) := by
  rcases c.stream_tokens.announced with ⟨ms, hms, -⟩ | ⟨t, hlast, ht, herror⟩
  · rw [tokens_down, Marker.listOfTokens_map_down hms, hms]
    rfl
  · have hlast' : (c.down n).tokens.getLast? = some (t.down n) := by
      rw [tokens_down, List.getLast?_map, hlast]
      rfl
    rw [herror, (c.down n).stream_tokens.listOfTokens_fault hlast' ht]
    rfl

/-! ### Lines below -/

theorem Stream.ne_nil (H : Stream q ts) : ts ≠ [] := by
  cases H <;> exact List.cons_ne_nil _ _

/-- The tokens behind those of a text that parses are parsed by themselves. -/
theorem Stream.listOfTokens_append {front : List Token} {p : Position}
    (H : Stream .marker (front ++ [.finish p]))
    (h : Marker.listOfTokens (front ++ [.finish p]) = .ok ms) (more : List Token) :
    Marker.listOfTokens (front ++ more) = (Marker.listOfTokens more).map (ms ++ ·) := by
  induction hk : front.length using Nat.strong_induction_on generalizing front ms with
  | _ k ih =>
    cases front with
    | nil =>
      rw [List.nil_append, Marker.listOfTokens_finish rfl] at h
      cases h
      cases hmore : Marker.listOfTokens more <;> simp [hmore, Except.map]
    | cons t front =>
      rw [List.cons_append] at H h
      generalize hts : front ++ [.finish p] = ts at H h
      cases H with
      | finish => simp at hts
      | fault => simp at hts
      | cons hq _ H =>
        obtain ⟨hplus, rfl⟩ := Stage.next?_marker_eq hq
        rcases Marker.listOfTokens_cons_eq_ok h with
          ⟨hfinish, -⟩ | ⟨-, m, rest, ms', hm, hms, rfl⟩
        · rw [hplus] at hfinish
          cases hfinish
        have hrest : Stream .marker rest := H.of_behindPlus hm
        obtain ⟨hplace, front', rfl, hfront⟩ := Marker.behindPlus_front hm
        rcases List.eq_nil_or_concat rest with rfl | ⟨rest', q, rfl⟩
        · exact absurd rfl hrest.ne_nil
        rw [List.concat_eq_append, ← List.append_assoc] at hts
        obtain ⟨rfl, rfl⟩ := List.append_singleton_inj.mp hts
        rw [List.concat_eq_append] at hrest hms
        have hlength : rest'.length < k := by
          rw [← hk, List.length_cons, List.length_append]
          omega
        have hread : Marker.behindPlus t.position (front' ++ (rest' ++ more)) =
            .ok (m, rest' ++ more) := by
          have hread := hfront id m.position (rest' ++ more)
          rw [Token.relocate_id, List.map_id] at hread
          rw [← hplace]
          exact hread
        rw [List.cons_append, List.append_assoc, Marker.listOfTokens_plus hplus, hread]
        simp only [Except.bind, ih _ hlength hrest hms rfl]
        cases Marker.listOfTokens more <;> rfl

theorem Token.Continued.finish_or_fault {text : List Char} {d : Cursor} {ts' : List Token}
    (H : Token.Continued text d ts ts') :
    (∃ front p, ts = front ++ [.finish p] ∧ ts' = front ++ d.tokens) ∨
      ∃ t, ts.getLast? = some t ∧ t.kind = .fault ∧ (ts' = ts ∨
        t.text = Fault.unterminatedRaw.message ∨ text.getLast? = some '\r') := by
  induction H with
  | finish p => exact .inl ⟨[], p, rfl, rfl⟩
  | @fault t h => exact .inr ⟨t, rfl, h, .inl rfl⟩
  | @mended t ht h => exact .inr ⟨t, rfl, ht, .inr h⟩
  | cons t _ ih =>
    rcases ih with ⟨front, p, rfl, rfl⟩ | ⟨t', hlast, ht', h⟩
    · exact .inl ⟨t :: front, p, rfl, rfl⟩
    · refine .inr ⟨t', ?_, ht', h.imp_left (congrArg _)⟩
      rw [List.getLast?_cons, hlast]
      rfl

/-- Behind the text another line begins, as many lines down as the text has. -/
theorem Cursor.before_ofString (a b : String) :
    (Cursor.ofString a).Before a.toList ((Cursor.ofString b).down (1 + a.toList.count '\n')) := by
  refine ⟨List.suffix_rfl, ?_⟩
  have hend : Position.start.advance a.toList = .endOf a.toList := by
    rw [← Position.endOf_nil, Position.advance_endOf, List.nil_append]
  simp only [ofString, down, hend]
  simp [Position.step, Position.endOf, Position.down, Position.start]
  omega

/-- A text may be parsed line by line. Behind a text that parses, another line parses as it does by
itself, but for the count of lines. Where a text fails, lines behind it change nothing, unless it
ends in a carriage return or in a text between back-ticks that is still open. -/
theorem Marker.parse_append_line (a b : String) :
    match parse a with
    | .ok ms => parse (a ++ "\n" ++ b) =
      ((parse b).map fun ns => ms ++ ns.map (Marker.down (1 + a.toList.count '\n'))).mapError
        (ParseError.down (1 + a.toList.count '\n'))
    | .error e => a.toList.getLast? ≠ some '\r' →
      (∀ p, e ≠ .lexical Fault.unterminatedRaw.message p) →
      parse (a ++ "\n" ++ b) = .error e := by
  have hcontinued := Cursor.continued_tokens (Cursor.before_ofString a b)
  have hstream : Stream .marker (tokenize a) := Cursor.stream_tokens _
  have hextend : (Cursor.ofString a).extend ((Cursor.ofString b).down (1 + a.toList.count '\n')) =
      Cursor.ofString (a ++ "\n" ++ b) := by
    simp [Cursor.extend, Cursor.ofString]
  rw [hextend] at hcontinued
  rw [parse, parse, parse]
  rcases hcontinued.finish_or_fault with ⟨front, p, hfront, htokens⟩ | ⟨t, hlast, ht, htokens⟩
  · rw [tokenize, hfront] at hstream ⊢
    rcases hstream.announced with ⟨ms, hms, -⟩ | ⟨t, hlast, ht, -⟩
    · rw [hms, tokenize, htokens, hstream.listOfTokens_append hms, Cursor.listOfTokens_down]
      simp only [tokenize]
      cases Marker.listOfTokens (Cursor.ofString b).tokens <;> rfl
    · rw [List.getLast?_concat] at hlast
      cases hlast
      cases ht
  · rcases hstream.announced with ⟨ms, -, hblock⟩ | ⟨t', ht', -, herror⟩
    · obtain ⟨t', ht', hfinish⟩ := hblock.getLast
      rw [tokenize, hlast] at ht'
      cases ht'
      exact absurd (ht.symm.trans hfinish) (by decide)
    · rw [tokenize, hlast] at ht'
      cases ht'
      rw [herror]
      intro hreturn hraw
      rcases htokens with htokens | hmessage | hlast'
      · rw [tokenize, htokens]
        exact herror
      · exact absurd (by rw [Token.error, hmessage]) (hraw t.position)
      · exact absurd hlast' hreturn

/-- A quote that is open at the end of its line stays so, whatever the next line holds. -/
theorem Marker.parse_open_string_line :
    parse ("+a:b:c=\"x" ++ "\n" ++ "y\"") =
      .error (.lexical "unterminated string literal" ⟨1, 8⟩) := by
  have hscan : (Cursor.ofString "+a:b:c=\"x").scan =
      ⟨[⟨.plus, "+", ⟨1, 1⟩⟩, ⟨.identifier, "a:b:c", ⟨1, 2⟩⟩, ⟨.assign, "=", ⟨1, 7⟩⟩,
        ⟨.fault, "unterminated string literal", ⟨1, 8⟩⟩], none⟩ := by
    decide +kernel
  have hparse : parse "+a:b:c=\"x" = .error (.lexical "unterminated string literal" ⟨1, 8⟩) := by
    rw [parse, tokenize, Cursor.tokens_eq, Scan.all, hscan]
    dsimp only
    rw [listOfTokens_plus rfl]
    rfl
  have hlines := parse_append_line "+a:b:c=\"x" "y\""
  simp only [hparse] at hlines
  refine hlines (by decide +kernel) fun p h => ?_
  injection h with hmessage
  exact absurd hmessage (by decide +kernel)

end Markers
