import Markers.Proofs.Marker.Read
import Markers.Proofs.Token.Stream

/-!
# What parses is in the grammar

Each reader of tokens, on the tokens of a run, gives a value of the grammar: the run has moved over
the value's text, and the tokens that are left are those of a run behind it (`Leaves`). Blocks
follow by induction on the length of the text.
-/

namespace Markers

open Grammar

variable {c c' : Cursor} {s : Scan} {start : Position} {ts : List Token} {x : Literal}
  {xs : List Literal} {P Q : List Char → Prop}

/-- The tokens are left behind a text that starts at the cursor. -/
def Leaves (c : Cursor) (P : List Char → Prop) (ts : List Token) : Prop :=
  ∃ t c' s, c.Moves t c' ∧ P t ∧ Run .marker c' s ∧ ts = s.all

theorem Leaves.behind {front : List Char} (H : Leaves c' P ts) (h : c.Moves front c')
    (hPQ : ∀ t, P t → Q (front ++ t)) : Leaves c Q ts := by
  obtain ⟨t, c'', s, hmoves, ht, H, rfl⟩ := H
  exact ⟨front ++ t, c'', s, h.trans hmoves, hPQ t ht, H, rfl⟩

theorem Run.leaves {t : List Char} (H : Run .marker c' s) (h : c.Moves t c') (ht : P t) :
    Leaves c P s.all :=
  ⟨t, c', s, h, ht, H, rfl⟩

/-- What follows the elements in front of it up to the closing bracket of their list. -/
def Closes (front : List Char) (xs : List Literal) (t : List Char) : Prop :=
  ∃ t', t = t' ++ [']'] ∧ Scalars (front ++ t') xs

namespace Run

/-- The elements of a list that parses, at an element and behind one. -/
theorem closes (H : Run q c s) :
    (q = .element → ∀ xs ts, Literal.elementsOfTokens s.all = .ok (xs, ts) →
      Leaves c (Closes [] xs) ts) ∧
    (q = .separator → ∀ e x part xs ts, e.literal = .ok x → Scalar part x →
      Literal.elementsOfTokens (e :: s.all) = .ok (xs, ts) → Leaves c (Closes part xs) ts) := by
  induction H with
  | fault =>
    refine ⟨fun _ xs ts h => ?_, fun _ e x part xs ts he _ h => ?_⟩
    · rw [Scan.all_ofFault, Literal.elementsOfTokens_fault rfl] at h
      cases h
    · rw [Scan.all_ofFault, Literal.elementsOfTokens_separator_fault he rfl] at h
      cases h
  | element ht _ ih =>
    refine ⟨fun _ xs ts h => ?_, nofun⟩
    rw [Scan.all_cons] at h
    refine (ih.2 rfl _ _ _ _ _ ht.announces.literal ht.scalar h).behind ht.moves ?_
    rintro _ ⟨t', rfl, H⟩
    exact ⟨_, (List.append_assoc _ _ _).symm, H⟩
  | comma h _ ih =>
    refine ⟨nofun, fun _ e x part xs ts he hscalar hxs => ?_⟩
    rw [Scan.all_cons, Literal.elementsOfTokens_comma he rfl] at hxs
    obtain ⟨⟨ys, ts'⟩, hys, heq⟩ := map_eq_ok_iff.mp hxs
    cases heq
    refine (ih.1 rfl _ _ hys).behind h ?_
    rintro _ ⟨t', rfl, H⟩
    exact ⟨',' :: ' ' :: t', rfl, .cons hscalar H⟩
  | commaFault =>
    refine ⟨nofun, fun _ e x part xs ts he _ h => ?_⟩
    rw [Scan.all_cons, Literal.elementsOfTokens_comma he rfl, Scan.all_ofFault,
      Literal.elementsOfTokens_fault rfl] at h
    cases h
  | close h H _ =>
    refine ⟨nofun, fun _ e x part xs ts he hscalar hxs => ?_⟩
    rw [Scan.all_cons, Literal.elementsOfTokens_close he rfl] at hxs
    cases hxs
    refine H.leaves h ⟨[], rfl, ?_⟩
    rw [List.append_nil]
    exact .one hscalar
  | _ => exact ⟨nofun, nofun⟩

/-- The value of a marker that parses. -/
theorem value_of_ofTokens (H : Run .value c s) (h : Literal.ofTokens s.all = .ok (x, ts)) :
    Leaves c (Value · x) ts := by
  cases H with
  | fault =>
    rw [Scan.all_ofFault, Literal.ofTokens_fault rfl] at h
    cases h
  | scalar ht H =>
    rw [Scan.all_cons, Literal.ofTokens_scalar ht.announces.literal] at h
    cases h
    exact H.leaves ht.moves (.scalar ht.scalar)
  | raw htext hmoves H =>
    rw [Scan.all_cons, Literal.ofTokens_scalar Token.literal_raw] at h
    cases h
    exact H.leaves hmoves (.raw htext)
  | list hmoves H =>
    rw [Scan.all_cons, Literal.ofTokens_listOpen rfl] at h
    obtain ⟨⟨xs, ts'⟩, hxs, heq⟩ := map_eq_ok_iff.mp h
    cases heq
    refine (H.closes.1 rfl _ _ hxs).behind hmoves ?_
    rintro _ ⟨t', rfl, H⟩
    exact .list H

/-- What stands behind the identifier of a marker that parses. -/
theorem assigned_of_behindPlus {i : Token} {name : Identifier} {m : Marker} (H : Run .assign c s)
    (hi : i.kind = .identifier) (hn : Identifier.parse i.text = .ok name)
    (h : Marker.behindPlus start (i :: s.all) = .ok (m, ts)) :
    m.identifier = name ∧ m.position = start ∧ Leaves c (Assigned · m.value) ts := by
  cases H with
  | fault =>
    rw [Scan.all_ofFault, Marker.behindPlus_assign_fault hi hn rfl] at h
    cases h
  | assign hmoves H =>
    rw [Scan.all_cons, Marker.behindPlus_assign hi hn rfl] at h
    obtain ⟨⟨x, ts'⟩, hx, heq⟩ := map_eq_ok_iff.mp h
    cases heq
    exact ⟨rfl, rfl, (H.value_of_ofTokens hx).behind hmoves fun _ => .value⟩
  | bare H =>
    rw [Scan.all_cons, Scan.all_cons, Marker.behindPlus_assign hi hn rfl,
      Literal.ofTokens_scalar Token.literal_true] at h
    cases h
    exact ⟨rfl, rfl, H.leaves ⟨rfl, rfl⟩ .bare⟩

/-- A marker that parses, behind its plus sign. -/
theorem marker_of_behindPlus {m : Marker} (H : Run .identifier c s)
    (h : Marker.behindPlus start s.all = .ok (m, ts)) :
    m.position = start ∧ Leaves c (fun t => ∃ name t', t = name ++ t' ∧
      Identifier.ofChars name = .ok m.identifier ∧ Assigned t' m.value) ts := by
  cases H with
  | fault =>
    rw [Scan.all_ofFault, Marker.behindPlus_fault rfl] at h
    cases h
  | @identifier name i _ _ _ hname hmoves H =>
    rw [Scan.all_cons] at h
    obtain ⟨hidentifier, hstart, hleaves⟩ := H.assigned_of_behindPlus
      (i := ⟨.identifier, String.ofList name, c.position⟩) rfl (Identifier.parse_ofList hname) h
    refine ⟨hstart, hleaves.behind hmoves fun t ht => ⟨name, t, rfl, ?_, ht⟩⟩
    rw [hidentifier, hname]

/-- Behind a value of a text that parses, the text or the line ends. -/
theorem lineEnd_of_listOfTokens {ms : List Marker} (H : Run .marker c s)
    (h : Marker.listOfTokens s.all = .ok ms) :
    c.rest = [] ∧ ms = [] ∨
      ∃ e c', IsLineEnd e ∧ c.Moves e c' ∧ Marker.listOfTokens c'.tokens = .ok ms := by
  cases H with
  | fault =>
    rw [Scan.all_ofFault, Marker.listOfTokens_fault rfl] at h
    cases h
  | finish hrest =>
    rw [Scan.all_ofToken, Marker.listOfTokens_finish rfl] at h
    cases h
    exact .inl ⟨hrest, rfl⟩
  | lineEnd he hmoves => exact .inr ⟨_, _, he, hmoves, h⟩

end Run

namespace Cursor

theorem tokens_of_rest_nil (hrest : c.rest = []) : c.tokens = [.finish c.position] := by
  have hscan : c.scan = .ofToken (.finish c.position) := by
    simp [scan, dropWhile, behind, hrest]
  rw [tokens_eq, hscan, Scan.all_ofToken]

/-- A text that parses is a block of the grammar. -/
theorem block_of_tokens {before : List Char} {ms : List Marker} (hc : c.position = .endOf before)
    (h : Marker.listOfTokens c.tokens = .ok ms) : Block before c.rest ms := by
  induction hn : c.rest.length using Nat.strong_induction_on generalizing c before ms with
  | _ n ih =>
    have hnext {s : List Char} {c' : Cursor} {ms : List Marker} (hmoves : c.Moves s c')
        (hne : s ≠ []) (h : Marker.listOfTokens c'.tokens = .ok ms) :
        Block (before ++ s) c'.rest ms :=
      ih _ (hn ▸ hmoves.length_lt hne) (hmoves.endOf hc) h rfl
    rw [tokens_eq] at h
    have hline := c.lineStart
    generalize c.scan = scan at h hline
    cases hline with
    | finish hindent =>
      rw [Scan.all_ofToken, Marker.listOfTokens_finish rfl] at h
      cases h
      exact .prose hindent.isProse
    | @marker indent c1 hindent hplus _ =>
      rw [Scan.all_cons, Marker.listOfTokens_plus rfl] at h
      obtain ⟨⟨m, ts⟩, hm, h⟩ := bind_eq_ok_iff.mp h
      obtain ⟨ms', hms, rfl⟩ := map_eq_ok_iff.mp h
      obtain ⟨hstart, _, c2, s, hmoves, ⟨name, t, rfl, hname, ht⟩, H, rfl⟩ :=
        (run_marker c1).marker_of_behindPlus hm
      have hsegment : Segment before (indent ++ '+' :: (name ++ t)) m := by
        have hplace : m.position = .endOf (before ++ indent) := by
          rw [hstart, hc, Position.advance_endOf]
        exact .mk hindent hname ht hplace
      have hmoves : c.Moves (indent ++ '+' :: (name ++ t)) c2 := by
        simpa using hplus.trans hmoves
      rcases H.lineEnd_of_listOfTokens hms with ⟨hrest, rfl⟩ | ⟨e, c3, he, hend, hms⟩
      · rw [hmoves.rest, hrest, List.append_nil]
        exact .segment hsegment
      · rw [hmoves.rest, hend.rest]
        exact .segmentLine hsegment he (hnext (hmoves.trans hend) (by simp) hms)
    | @prose line c1 hmoves hend hline hstart =>
      rw [Scan.all_resumeAt, tokens_of_rest_nil hend, Marker.listOfTokens_finish rfl] at h
      cases h
      rw [hmoves.rest, hend, List.append_nil]
      rw [hmoves.rest] at hstart
      exact .prose (isProse_of_not_startsMarker hline hstart)
    | @proseLine line c1 hmoves hline hstart =>
      rw [Scan.all_resumeAt] at h
      have hblock := hnext hmoves (by simp) h
      rw [hmoves.rest, List.append_assoc] at hstart ⊢
      exact .proseLine (isProse_of_not_startsMarker hline hstart) hblock

end Cursor

theorem Grammar.Block.identifier_parses {before text : List Char} {ms : List Marker}
    (H : Block before text ms) : ∀ m ∈ ms, ∃ name, Identifier.parse name = .ok m.identifier := by
  have hsegment {before t : List Char} {m : Marker} (h : Segment before t m) :
      ∃ name, Identifier.parse name = .ok m.identifier := by
    cases h with
    | mk _ hname => exact ⟨_, Identifier.parse_ofList hname⟩
  induction H with
  | prose => simp
  | proseLine _ _ ih => exact ih
  | segment h => simpa using hsegment h
  | segmentLine h _ _ ih => exact List.forall_mem_cons.mpr ⟨hsegment h, ih⟩

/-- The identifiers of a text that parses are themselves such that were read. -/
theorem Marker.identifier_parses {text : String} {ms : List Marker} (h : parse text = .ok ms) :
    ∀ m ∈ ms, ∃ name, Identifier.parse name = .ok m.identifier :=
  (Cursor.block_of_tokens Position.endOf_nil.symm h).identifier_parses

end Markers
