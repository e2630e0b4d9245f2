import Markers.Proofs.Marker.Lines
import Markers.Proofs.Token.LineEnds

/-!
# Parsing with other line ends

A text whose lines end in a carriage return and a line feed parses as it does with line feeds alone.
The same markers stand at the same places, and a fault is the same fault. Only values between
back-ticks hold the line ends that the text has.
-/

namespace Markers

variable {a t : Token} {ts rest : List Token} {x : Literal} {xs : List Literal} {m : Marker}
  {ms : List Marker} {start : Position}

/-- The string with a carriage return in front of each line feed. -/
def Literal.crlf : Literal → Literal
  | .string s => .string (crlfText s)
  | x => x

/-- The marker of a text with the other line ends, where the tokens of its value start with `t`. -/
def Marker.crlf (t : Token) (m : Marker) : Marker :=
  if t.isRaw then m.withValue m.value.crlf else m

/-- The tokens that values start with, which are those behind an assignment. -/
def Token.valueStarts : List Token → List Token
  | a :: t :: ts => if a.kind = .assign then t :: valueStarts (t :: ts) else valueStarts (t :: ts)
  | _ => []

namespace Token

theorem valueStarts_cons (h : t.kind ≠ .assign) (ts : List Token) :
    valueStarts (t :: ts) = valueStarts ts := by
  cases ts with
  | nil => rfl
  | cons => rw [valueStarts, if_neg h]

theorem valueStarts_assign (h : a.kind = .assign) (t : Token) (ts : List Token) :
    valueStarts (a :: t :: ts) = t :: valueStarts (t :: ts) := by
  rw [valueStarts, if_pos h]

theorem kind_ne_assign (h : t.literal = .ok x) : t.kind ≠ .assign := by
  intro hkind
  simp [literal, hkind] at h

theorem literal_crlf (hraw : t.isRaw = true) (h : t.literal = .ok x) :
    t.crlf.literal = .ok x.crlf := by
  obtain ⟨s, ht, rfl⟩ := raw_of_literal hraw h
  have hcrlf : Markers.crlf (Lexeme.backTick :: (s ++ [Lexeme.backTick])) =
      Lexeme.backTick :: (Markers.crlf s ++ [Lexeme.backTick]) := by
    rw [Markers.crlf_cons (by decide), crlf_append]
    rfl
  rw [ht, crlf_raw, hcrlf, literal_raw, Literal.crlf, crlfText, String.toList_ofList]

end Token

/-! ### Readers -/

/-- The elements of a list hold no line ends. -/
theorem Literal.elementsOfTokens_crlf (h : Literal.elementsOfTokens ts = .ok (xs, rest))
    (hraw : Token.RawAssigned (a :: ts)) (ha : a.kind ≠ .assign) :
    Literal.elementsOfTokens (ts.map Token.crlf) = .ok (xs, rest.map Token.crlf) ∧
      Token.valueStarts ts = Token.valueStarts rest ∧ Token.RawAssigned rest := by
  fun_induction Literal.elementsOfTokens ts generalizing a xs with
  | case5 t s ts x hx hs =>
    cases h
    have ht := Token.kind_ne_assign hx
    have hs' : s.kind ≠ .assign := by simp [hs]
    rw [List.map_cons, List.map_cons, hraw.crlf_eq ha, hraw.tail.crlf_eq ht,
      Literal.elementsOfTokens_close hx hs, Token.valueStarts_cons ht, Token.valueStarts_cons hs']
    exact ⟨rfl, rfl, hraw.tail.tail.tail⟩
  | case7 t s ts x hx hs ys rest' hys ih =>
    cases h
    have ht := Token.kind_ne_assign hx
    have hs' : s.kind ≠ .assign := by simp [hs]
    obtain ⟨hread, hstarts, hrest⟩ := ih hys hraw.tail.tail hs'
    rw [List.map_cons, List.map_cons, hraw.crlf_eq ha, hraw.tail.crlf_eq ht,
      Literal.elementsOfTokens_comma hx hs, hread, Token.valueStarts_cons ht,
      Token.valueStarts_cons hs']
    exact ⟨rfl, hstarts, hrest⟩
  | _ => cases h

theorem Literal.ofTokens_crlf (h : Literal.ofTokens (t :: ts) = .ok (x, rest))
    (hraw : Token.RawAssigned (t :: ts)) :
    Literal.ofTokens ((t :: ts).map Token.crlf) =
        .ok (if t.isRaw then x.crlf else x, rest.map Token.crlf) ∧
      Token.valueStarts (t :: ts) = Token.valueStarts rest ∧ Token.RawAssigned rest := by
  rw [ofTokens] at h
  split at h
  · next hopen =>
    obtain ⟨⟨xs, r⟩, hxs, heq⟩ := map_eq_ok_iff.mp h
    cases heq
    have ht : t.kind ≠ .assign := by simp [hopen]
    have hstring : t.kind ≠ .string := by simp [hopen]
    obtain ⟨hread, hstarts, hrest⟩ := elementsOfTokens_crlf hxs hraw ht
    rw [List.map_cons, Token.crlf_of_kind hstring, ofTokens_listOpen hopen, hread,
      Token.isRaw_of_kind hstring, Token.valueStarts_cons ht]
    exact ⟨rfl, hstarts, hrest⟩
  · obtain ⟨y, hy, heq⟩ := map_eq_ok_iff.mp h
    cases heq
    rw [List.map_cons, Token.valueStarts_cons (Token.kind_ne_assign hy)]
    refine ⟨?_, rfl, hraw.tail⟩
    cases hr : t.isRaw with
    | false => rw [Token.crlf_of_not_raw hr, ofTokens_scalar hy]; rfl
    | true => rw [ofTokens_scalar (Token.literal_crlf hr hy)]; rfl

theorem Marker.behindPlus_crlf (h : Marker.behindPlus start ts = .ok (m, rest))
    (hraw : Token.RawAssigned ts) :
    ∃ t, Token.valueStarts ts = t :: Token.valueStarts rest ∧
      Marker.behindPlus start (ts.map Token.crlf) = .ok (m.crlf t, rest.map Token.crlf) ∧
      Token.RawAssigned rest := by
  obtain ⟨i, a, ts, rfl, hi, hname, ha, hx, hplace⟩ := behindPlus_eq_ok h
  cases ts with
  | nil => cases hx
  | cons t ts =>
    obtain ⟨hread, hstarts, hrest⟩ := Literal.ofTokens_crlf hx hraw.tail.tail
    refine ⟨t, ?_, ?_, hrest⟩
    · rw [Token.valueStarts_cons (by simp [hi]), Token.valueStarts_assign ha, hstarts]
    · rw [List.map_cons, List.map_cons, Token.crlf_of_kind (by simp [hi]),
        Token.crlf_of_kind (by simp [ha]), behindPlus_assign hi hname ha, hread, Marker.crlf]
      cases t.isRaw <;> simp [Except.map, withValue, ← hplace]

/-- Markers that parse do so with other line ends, and each of them has one value. -/
theorem Stream.listOfTokens_crlf (H : Stream .marker ts) (hraw : Token.RawAssigned ts)
    (h : Marker.listOfTokens ts = .ok ms) :
    Marker.listOfTokens (ts.map Token.crlf) =
        .ok (List.zipWith Marker.crlf (Token.valueStarts ts) ms) ∧
      (Token.valueStarts ts).length = ms.length := by
  induction hk : ts.length using Nat.strong_induction_on generalizing ts ms with
  | _ k ih =>
    cases H with
    | finish p =>
      rw [Marker.listOfTokens_finish rfl] at h
      cases h
      exact ⟨Marker.listOfTokens_finish rfl, rfl⟩
    | fault ht =>
      rw [Marker.listOfTokens_fault ht] at h
      cases h
    | @cons _ ts _ t hq _ H =>
      obtain ⟨hplus, rfl⟩ := Stage.next?_marker_eq hq
      rw [Marker.listOfTokens_plus hplus] at h
      obtain ⟨⟨m, rest⟩, hm, h⟩ := bind_eq_ok_iff.mp h
      obtain ⟨ms', hms, rfl⟩ := map_eq_ok_iff.mp h
      obtain ⟨v, hstarts, hread, hrest⟩ := Marker.behindPlus_crlf hm hraw.tail
      have hstream : Stream .marker rest := H.of_behindPlus hm
      have hlength : rest.length < k := by
        have := Marker.length_behindPlus_le hm
        rw [← hk, List.length_cons]
        omega
      obtain ⟨hlist, hcount⟩ := ih _ hlength hstream hrest hms rfl
      have hkind : t.kind ≠ .assign := by simp [hplus]
      have hstring : t.kind ≠ .string := by simp [hplus]
      rw [List.map_cons, Token.crlf_of_kind hstring, Marker.listOfTokens_plus hplus, hread,
        Token.valueStarts_cons hkind, hstarts, List.zipWith_cons_cons, List.length_cons,
        List.length_cons, hcount]
      simp only [Except.bind, hlist, Except.map, and_self]

/-- Line ends do not matter. Where each line feed of a text has a carriage return in front of it,
the text has the same tokens and parses as the same markers or with the same error, but for the line
ends that stand between back-ticks. -/
theorem Marker.parse_crlf (text : String) (h : '\r' ∉ text.toList) :
    tokenize (crlfText text) = (tokenize text).map Token.crlf ∧
    parse (crlfText text) =
      (parse text).map (List.zipWith Marker.crlf (Token.valueStarts (tokenize text))) ∧
    ∀ ms, parse text = .ok ms → (Token.valueStarts (tokenize text)).length = ms.length := by
  have htokens : tokenize (crlfText text) = (tokenize text).map Token.crlf := by
    have hcrlf : Cursor.ofString (crlfText text) = (Cursor.ofString text).crlf := by
      simp [Cursor.ofString, Cursor.crlf, crlfText]
    rw [tokenize, hcrlf]
    exact Cursor.tokens_crlf h
  have hstream : Stream .marker (tokenize text) := Cursor.stream_tokens _
  have hstream' : Stream .marker (tokenize (crlfText text)) := Cursor.stream_tokens _
  have hraw : Token.RawAssigned (tokenize text) :=
    ((Cursor.ofString text).rawAssigned_tokens (.finish .start)).tail
  refine ⟨htokens, ?_, fun ms hms => (hstream.listOfTokens_crlf hraw hms).2⟩
  rw [parse, parse]
  rcases hstream.announced with ⟨ms, hms, -⟩ | ⟨t, hlast, ht, herror⟩
  · rw [hms, htokens, (hstream.listOfTokens_crlf hraw hms).1]
    rfl
  · have hlast' : (tokenize (crlfText text)).getLast? = some t := by
      rw [htokens, List.getLast?_map, hlast, Option.map_some, Token.crlf_of_kind (by simp [ht])]
    rw [herror, hstream'.listOfTokens_fault hlast' ht]
    rfl

/-- A text between back-ticks that spans two lines holds the carriage return between them. -/
theorem Marker.parse_crlf_between_backTicks :
    '\r' ∉ "+a:b:c=\x60x\ny\x60".toList ∧
    parse (crlfText "+a:b:c=\x60x\ny\x60") =
      .ok [⟨⟨"a", "b", "c"⟩, .string "x\r\ny", ⟨1, 1⟩⟩] := by
  have hscan : (Cursor.ofString "+a:b:c=\x60x\ny\x60").scan =
      ⟨[⟨.plus, "+", ⟨1, 1⟩⟩, ⟨.identifier, "a:b:c", ⟨1, 2⟩⟩, ⟨.assign, "=", ⟨1, 7⟩⟩,
        ⟨.string, "\x60x\ny\x60", ⟨1, 8⟩⟩, ⟨.finish, "", ⟨2, 3⟩⟩], none⟩ := by
    decide +kernel
  have htokens : tokenize "+a:b:c=\x60x\ny\x60" =
      [⟨.plus, "+", ⟨1, 1⟩⟩, ⟨.identifier, "a:b:c", ⟨1, 2⟩⟩, ⟨.assign, "=", ⟨1, 7⟩⟩,
        ⟨.string, "\x60x\ny\x60", ⟨1, 8⟩⟩, ⟨.finish, "", ⟨2, 3⟩⟩] := by
    rw [tokenize, Cursor.tokens_eq, Scan.all, hscan]
  have hmarker : behindPlus ⟨1, 1⟩ [⟨.identifier, "a:b:c", ⟨1, 2⟩⟩, ⟨.assign, "=", ⟨1, 7⟩⟩,
      ⟨.string, "\x60x\ny\x60", ⟨1, 8⟩⟩, ⟨.finish, "", ⟨2, 3⟩⟩] =
        .ok (⟨⟨"a", "b", "c"⟩, .string "x\ny", ⟨1, 1⟩⟩, [⟨.finish, "", ⟨2, 3⟩⟩]) := rfl
  have hparse : parse "+a:b:c=\x60x\ny\x60" =
      .ok [⟨⟨"a", "b", "c"⟩, .string "x\ny", ⟨1, 1⟩⟩] := by
    rw [parse, htokens, listOfTokens_plus rfl]
    simp only [hmarker, Except.bind]
    rw [listOfTokens_finish rfl]
    rfl
  have hreturn : '\r' ∉ "+a:b:c=\x60x\ny\x60".toList := by decide
  have hcrlf := (parse_crlf _ hreturn).2.1
  rw [htokens, hparse] at hcrlf
  exact ⟨hreturn, hcrlf⟩

end Markers
