import Markers.Proofs.Marker.Read
import Markers.Proofs.Token.Stream

/-!
# Parsing follows the tokens

The tokens of a text announce its markers, or the last of them is a fault. Parsing gives what is
announced or that fault, and nothing else: it never meets a token that it cannot read. The readers
of tokens are taken one by one, each on the stage of the stream that it starts at.
-/

namespace Markers

theorem Token.Announces.not_plus {t : Token} {x : Literal} (ht : t.Announces x) :
    t.kind ≠ .plus := by
  intro h
  have hk := ht.kind
  rw [h] at hk
  cases hk

namespace Announced

/-- The elements of a list, with what separates and what closes them. -/
inductive Elements : List Token → List Literal → Prop
  | one (ht : t.Announces x) (hs : s.kind = .listClose) : Elements [t, s] [x]
  | cons (ht : t.Announces x) (hs : s.kind = .comma) (H : Elements ts xs) :
    Elements (t :: s :: ts) (x :: xs)

inductive Value : List Token → Literal → Prop
  | scalar (ht : t.Announces x) : Value [t] x
  | list (ht : t.kind = .listOpen) (H : Elements ts xs) : Value (t :: ts) (.list xs)

/-- A marker behind its plus sign, which is at `start`. -/
inductive Marker (start : Position) : List Token → Markers.Marker → Prop
  | mk (hi : i.kind = .identifier) (hname : toString m.identifier = i.text) (ha : a.kind = .assign)
    (H : Value ts m.value) (hplace : m.position = start) : Marker start (i :: a :: ts) m

/-- The markers of a text. -/
inductive Block : List Token → List Markers.Marker → Prop
  | finish (h : t.kind = .finish) : Block [t] []
  | cons (hp : p.kind = .plus) (hm : Marker p.position ts m) (H : Block rest ms) :
    Block (p :: (ts ++ rest)) (m :: ms)

theorem Elements.not_plus (H : Elements ts xs) : ∀ t ∈ ts, t.kind ≠ .plus := by
  induction H with
  | one ht hs => simp [ht.not_plus, hs]
  | cons ht hs _ ih => simpa [ht.not_plus, hs] using ih

theorem Marker.not_plus (H : Marker start ts m) : ∀ t ∈ ts, t.kind ≠ .plus := by
  cases H with
  | mk hi _ ha H _ =>
    generalize m.value = x at H
    cases H with
    | scalar ht => simp [hi, ha, ht.not_plus]
    | list ht H => simpa [hi, ha, ht] using H.not_plus

theorem Marker.place (H : Marker start ts m) : m.position = start := by
  cases H with
  | mk _ _ _ _ hplace => exact hplace

/-- The plus signs are the markers' places. -/
theorem Block.places (H : Block ts ms) :
    ms.map (·.position) = (ts.filter (·.kind = .plus)).map (·.position) := by
  induction H with
  | finish h => simp [h]
  | cons hp hm _ ih =>
    simpa [hp, hm.place, ih] using hm.not_plus

theorem Block.getLast (H : Block ts ms) : ∃ t, ts.getLast? = some t ∧ t.kind = .finish := by
  induction H with
  | @finish t h => exact ⟨t, rfl, h⟩
  | @cons _ _ ts rest _ _ _ _ ih =>
    obtain ⟨t, ht, hkind⟩ := ih
    refine ⟨t, ?_, hkind⟩
    rw [← List.cons_append, List.getLast?_append, ht]
    rfl

end Announced

/-- What a reader makes of tokens. Either it gives what the front of them announces, and leaves a
stream between two markers, or it gives the fault that the tokens end with. -/
inductive Reads (P : List Token → α → Prop) :
    List Token → Except ParseError (α × List Token) → Prop
  | ok (front : List Token) (h : P front x) (H : Stream .marker rest) :
    Reads P (front ++ rest) (.ok (x, rest))
  | fault (front : List Token) (h : t.kind = .fault) : Reads P (front ++ [t]) (.error t.error)

/-- A reader may read tokens in front of those that another one reads. -/
theorem Reads.behind {P : List Token → α → Prop} {Q : List Token → β → Prop} {f : α → β}
    (H : Reads P ts r) (front : List Token) (hf : ∀ ts x, P ts x → Q (front ++ ts) (f x)) :
    Reads Q (front ++ ts) (r.map fun (x, rest) => (f x, rest)) := by
  cases H with
  | ok ts h H =>
    rw [← List.append_assoc]
    exact .ok _ (hf ts _ h) H
  | fault ts h =>
    rw [← List.append_assoc]
    exact .fault _ h

namespace Stream

variable {ts : List Token}

/-- The elements of a list, at an element and at what separates it from the next. -/
theorem reads_elements (H : Stream q ts) :
    (q = .element → Reads Announced.Elements ts (Literal.elementsOfTokens ts)) ∧
    (q = .separator → ∀ e x, e.Announces x →
      Reads Announced.Elements (e :: ts) (Literal.elementsOfTokens (e :: ts))) := by
  induction H with
  | finish => exact ⟨nofun, nofun⟩
  | @fault _ t h =>
    refine ⟨fun _ => ?_, fun _ e x he => ?_⟩
    · rw [Literal.elementsOfTokens_fault h]
      exact .fault [] h
    · rw [Literal.elementsOfTokens_separator_fault he.literal h]
      exact .fault [e] h
  | @cons _ ts _ t hq ht H ih =>
    refine ⟨?_, ?_⟩
    · rintro rfl
      obtain ⟨⟨k, hk⟩, rfl⟩ := Stage.next?_element_eq hq
      obtain ⟨x, hx⟩ := ht.announces hk
      exact ih.2 rfl t x hx
    · rintro rfl e x he
      rcases Stage.next?_separator_eq hq with ⟨hcomma, rfl⟩ | ⟨hclose, rfl⟩
      · rw [Literal.elementsOfTokens_comma he.literal hcomma]
        exact (ih.1 rfl).behind [e, t] fun _ _ => .cons he hcomma
      · rw [Literal.elementsOfTokens_close he.literal hclose]
        exact .ok [e, t] (.one he hclose) H

theorem reads_value (H : Stream .value ts) : Reads Announced.Value ts (Literal.ofTokens ts) := by
  cases H with
  | @fault _ t h =>
    rw [Literal.ofTokens_fault h]
    exact .fault [] h
  | @cons _ ts _ t hq ht H =>
    rcases Stage.next?_value_eq hq with ⟨hopen, rfl⟩ | ⟨⟨k, hk⟩, rfl⟩
    · rw [Literal.ofTokens_listOpen hopen]
      exact (H.reads_elements.1 rfl).behind [t] fun _ _ => .list hopen
    · obtain ⟨x, hx⟩ := ht.announces hk
      rw [Literal.ofTokens_scalar hx.literal]
      exact .ok [t] (.scalar hx) H

theorem reads_marker (H : Stream .identifier ts) (start : Position) :
    Reads (Announced.Marker start) ts (Marker.behindPlus start ts) := by
  cases H with
  | @fault _ t h =>
    rw [Marker.behindPlus_fault h]
    exact .fault [] h
  | @cons _ ts _ i hq hi H =>
    obtain ⟨hkind, rfl⟩ := Stage.next?_identifier_eq hq
    obtain ⟨name, hparse, hname⟩ := hi.identifier hkind
    cases H with
    | @fault _ t h =>
      rw [Marker.behindPlus_assign_fault hkind hparse h]
      exact .fault [i] h
    | @cons _ ts _ a hq _ H =>
      obtain ⟨ha, rfl⟩ := Stage.next?_assign_eq hq
      rw [Marker.behindPlus_assign hkind hparse ha]
      exact H.reads_value.behind (f := fun x => Marker.mk name x start) [i, a] fun _ _ h =>
        Announced.Marker.mk hkind hname ha h rfl

/-- Behind a marker that is read the stream is between two markers again. -/
theorem of_behindPlus {start : Position} {m : Marker} {rest : List Token}
    (H : Stream .identifier ts) (h : Marker.behindPlus start ts = .ok (m, rest)) :
    Stream .marker rest := by
  have hreads := H.reads_marker start
  rw [h] at hreads
  cases hreads with
  | ok _ _ hrest => exact hrest

/-- The markers of a stream are announced by it, unless it ends with a fault. -/
theorem announced (H : Stream .marker ts) :
    (∃ ms, Marker.listOfTokens ts = .ok ms ∧ Announced.Block ts ms) ∨
      ∃ t, ts.getLast? = some t ∧ t.kind = .fault ∧ Marker.listOfTokens ts = .error t.error := by
  induction hn : ts.length using Nat.strong_induction_on generalizing ts with
  | _ n ih =>
    cases H with
    | finish p => exact .inl ⟨[], Marker.listOfTokens_finish rfl, .finish rfl⟩
    | @fault _ t h => exact .inr ⟨t, rfl, h, Marker.listOfTokens_fault h⟩
    | @cons _ ts _ p hq _ H =>
      obtain ⟨hp, rfl⟩ := Stage.next?_marker_eq hq
      rw [Marker.listOfTokens_plus hp]
      have hreads := H.reads_marker p.position
      generalize Marker.behindPlus p.position ts = r at hreads ⊢
      cases hreads with
      | @ok m rest front hm hrest =>
        have hlength : rest.length < n := by
          rw [← hn, List.length_cons, List.length_append]
          omega
        rcases ih _ hlength hrest rfl with ⟨ms, hms, hblock⟩ | ⟨t, hlast, ht, herror⟩
        · refine .inl ⟨m :: ms, ?_, .cons hp hm hblock⟩
          simp only [Except.bind, hms, Except.map]
        · refine .inr ⟨t, ?_, ht, ?_⟩
          · rw [← List.cons_append, List.getLast?_append, hlast]
            rfl
          · simp only [Except.bind, herror, Except.map]
      | @fault t ts h =>
        refine .inr ⟨t, ?_, h, rfl⟩
        rw [← List.cons_append, List.getLast?_append]
        rfl

/-- The last token of a stream says whether its markers are read or its fault is. -/
theorem read_or_fault (H : Stream .marker ts) (hlast : ts.getLast? = some t) :
    t.kind = .finish ∧ (∃ ms, Marker.listOfTokens ts = .ok ms) ∨
      t.kind = .fault ∧ Marker.listOfTokens ts = .error t.error := by
  rcases H.announced with ⟨ms, hms, hblock⟩ | ⟨t', hlast', hfault, herror⟩
  · obtain ⟨t', hlast', hfinish⟩ := hblock.getLast
    rw [hlast] at hlast'
    cases hlast'
    exact .inl ⟨hfinish, ms, hms⟩
  · rw [hlast] at hlast'
    cases hlast'
    exact .inr ⟨hfault, herror⟩

/-- A stream that ends with a fault is read as that fault. -/
theorem listOfTokens_fault (H : Stream .marker ts) (hlast : ts.getLast? = some t)
    (ht : t.kind = .fault) : Marker.listOfTokens ts = .error t.error := by
  rcases H.read_or_fault hlast with ⟨hfinish, -⟩ | ⟨-, herror⟩
  · rw [ht] at hfinish
    cases hfinish
  · exact herror

theorem sound (H : Stream q ts) : ∀ t ∈ ts, t.Sound := by
  induction H with
  | finish =>
    intro t ht
    rw [List.mem_singleton.mp ht]
    exact .of_mark rfl
  | fault h =>
    intro t ht
    rw [List.mem_singleton.mp ht]
    refine .of_mark ?_
    rw [h]
    rfl
  | cons _ ht _ ih =>
    intro t hmem
    rcases List.mem_cons.mp hmem with rfl | hmem
    · exact ht
    · exact ih t hmem

end Stream

/-- Parsing a text fails exactly where its tokens end with a fault, and then with that fault. Else
it gives the markers that the tokens announce, at the places of the plus signs. All tokens of a text
read as what they announce. -/
theorem Marker.parse_follows_tokens (text : String) :
    (∀ e, Marker.parse text = .error e → e.isLexical = true) ∧
    (∀ message position, Marker.parse text = .error (.lexical message position) ↔
      (tokenize text).getLast? = some ⟨.fault, message, position⟩) ∧
    (∀ ms, Marker.parse text = .ok ms →
      Announced.Block (tokenize text) ms ∧
      ms.map (·.position) = ((tokenize text).filter (·.kind = .plus)).map (·.position)) ∧
    ∀ t ∈ tokenize text, t.Sound := by
  have hstream : Stream .marker (tokenize text) := Cursor.stream_tokens _
  refine ⟨?_, ?_, ?_, hstream.sound⟩
  all_goals
    rw [Marker.parse]
    rcases hstream.announced with ⟨ms, hms, hblock⟩ | ⟨t, hlast, ht, herror⟩
  · intro e h
    rw [hms] at h
    cases h
  · intro e h
    rw [herror] at h
    cases h
    rfl
  · intro message position
    obtain ⟨t, hlast, ht⟩ := hblock.getLast
    rw [hms, hlast]
    refine ⟨nofun, ?_⟩
    rintro ⟨⟩
    cases ht
  · intro message position
    obtain ⟨kind, text, place⟩ := t
    cases ht
    rw [herror, hlast, Token.error]
    simp
  · intro ms' h
    rw [hms] at h
    cases h
    exact ⟨hblock, hblock.places⟩
  · intro ms h
    rw [herror] at h
    cases h

end Markers
