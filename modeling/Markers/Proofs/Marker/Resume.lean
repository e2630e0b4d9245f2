import Markers.Proofs.Marker.Announcement
import Markers.Proofs.Marker.Pulled
import Markers.Proofs.Token.Language

/-!
# Parsing the rest of a stream

A stream from which tokens have been pulled is parsed from the next one on. Nothing that was read
before a marker bears on it, so at a plus sign the rest of the stream gives the rest of the markers
(`listOfTokens_drop`). No marker begins at another token, and none is made up there
(`listOfStream_pull`).
-/

namespace Markers

variable {q : Stage} {t : Token} {ts front rest : List Token} {m : Markers.Marker}
  {ms : List Markers.Marker} {start : Position} {k : Nat}

theorem Stage.next?_plus_eq {q' : Stage} (h : q.next? .plus = some q') : q = .marker := by
  cases q <;> cases h
  rfl

/-- Behind a marker's tokens a plus sign is that of a later one. -/
theorem Announced.Marker.plus_behind (H : Announced.Marker start front m)
    (hk : (front ++ rest)[k]? = some t) (ht : t.kind = .plus) :
    ∃ j, k = front.length + j ∧ rest[j]? = some t := by
  have hle : front.length ≤ k := by
    by_contra hlt
    rw [List.getElem?_append_left (Nat.lt_of_not_le hlt)] at hk
    exact H.not_plus t (List.mem_of_getElem? hk) ht
  obtain ⟨j, rfl⟩ := Nat.exists_eq_add_of_le hle
  refine ⟨j, rfl, ?_⟩
  rwa [List.getElem?_append_right hle, Nat.add_sub_cancel_left] at hk

theorem Announced.Marker.countP_plus (H : Announced.Marker start front m) :
    front.countP (·.kind = .plus) = 0 := by
  rw [List.countP_eq_zero]
  intro t ht
  simpa using H.not_plus t ht

namespace Stream

/-- Behind some of its tokens a stream goes on at some stage. -/
theorem drop (H : Stream q ts) (hk : k < ts.length) : ∃ q', Stream q' (ts.drop k) := by
  induction H generalizing k with
  | finish p =>
    obtain rfl : k = 0 := Nat.lt_one_iff.mp hk
    exact ⟨_, .finish p⟩
  | @fault q _ h =>
    obtain rfl : k = 0 := Nat.lt_one_iff.mp hk
    exact ⟨q, .fault h⟩
  | cons hq ht H ih =>
    cases k with
    | zero => exact ⟨_, .cons hq ht H⟩
    | succ k => exact ih (Nat.lt_of_succ_lt_succ hk)

/-- A plus sign stands between two markers. -/
theorem eq_marker_of_plus (H : Stream q (t :: ts)) (ht : t.kind = .plus) : q = .marker := by
  cases H with
  | finish => cases ht
  | fault h =>
    rw [ht] at h
    cases h
  | cons hq =>
    rw [ht] at hq
    exact Stage.next?_plus_eq hq

theorem drop_plus (H : Stream q ts) (hk : ts[k]? = some t) (ht : t.kind = .plus) :
    Stream .marker (ts.drop k) := by
  obtain ⟨hlt, rfl⟩ := List.getElem?_eq_some_iff.mp hk
  obtain ⟨q', H'⟩ := H.drop hlt
  rw [List.drop_eq_getElem_cons hlt] at H' ⊢
  obtain rfl := H'.eq_marker_of_plus ht
  exact H'

theorem getLast?_of_terminal (H : Stream q ts) (hmem : t ∈ ts) (ht : t.isTerminal = true) :
    ts.getLast? = some t := by
  obtain ⟨front, last, rfl, -, hfront⟩ := H.terminal
  rw [List.getLast?_concat]
  rcases List.mem_append.mp hmem with hmem | hmem
  · rw [hfront t hmem] at ht
    cases ht
  · rw [List.mem_singleton.mp hmem]

theorem exists_getLast? (H : Stream q ts) : ∃ t, ts.getLast? = some t ∧ t.isTerminal = true := by
  obtain ⟨front, t, rfl, ht, -⟩ := H.terminal
  exact ⟨t, List.getLast?_concat, ht⟩

/-- At a plus sign the markers of a stream are all but those in front of it. -/
theorem listOfTokens_drop (H : Stream .marker ts) (h : Marker.listOfTokens ts = .ok ms)
    (hk : ts[k]? = some t) (ht : t.kind = .plus) :
    Marker.listOfTokens (ts.drop k) = .ok (ms.drop ((ts.take k).countP (·.kind = .plus))) := by
  induction hn : ts.length using Nat.strong_induction_on generalizing ts ms k with
  | _ n ih =>
    cases k with
    | zero => exact h
    | succ k =>
      cases H with
      | finish => cases hk
      | fault => cases hk
      | @cons _ ts _ p hq _ H =>
        obtain ⟨hp, rfl⟩ := Stage.next?_marker_eq hq
        rw [Marker.listOfTokens_plus hp] at h
        obtain ⟨⟨m, rest⟩, hm, h⟩ := bind_eq_ok_iff.mp h
        obtain ⟨ms, hms, rfl⟩ := map_eq_ok_iff.mp h
        have hreads := H.reads_marker p.position
        rw [hm] at hreads
        cases hreads with
        | ok front hfront hrest =>
          obtain ⟨j, rfl, hj⟩ := hfront.plus_behind hk ht
          have hlength : rest.length < n := by
            rw [← hn, List.length_cons, List.length_append]
            omega
          have hcount : ((p :: (front ++ rest)).take (front.length + j + 1)).countP
              (·.kind = .plus) = (rest.take j).countP (·.kind = .plus) + 1 := by
            rw [List.take_succ_cons, List.take_length_add_append, List.countP_cons,
              List.countP_append, hfront.countP_plus, Nat.zero_add, if_pos (decide_eq_true hp)]
          rw [hcount, List.drop_succ_cons, List.drop_succ_cons, List.drop_length_add_append]
          exact ih _ hlength hrest hms hj rfl

/-- The fault that a stream ends with is found from every plus sign on. -/
theorem listOfTokens_drop_fault {last : Token} (H : Stream .marker ts)
    (hlast : ts.getLast? = some last) (hfault : last.kind = .fault) (hk : ts[k]? = some t)
    (ht : t.kind = .plus) : Marker.listOfTokens (ts.drop k) = .error last.error := by
  refine (H.drop_plus hk ht).listOfTokens_fault ?_ hfault
  rw [List.getLast?_drop, if_neg (Nat.not_le_of_lt (List.getElem?_eq_some_iff.mp hk).1), hlast]

end Stream

/-- A stream from which tokens have been pulled is parsed as what is left of it. At a plus sign it
gives the markers from there on, unless the text ends with a fault. Where all tokens are pulled, or
all but the end, it gives none. It fails at every other token, for want of a plus sign. -/
theorem Marker.listOfStream_pull (text : String) (k : Nat) :
    let ts := tokenize text
    let result := listOfStream ((TokenStream.ofString text).pull k).2
    ∃ last, ts.getLast? = some last ∧ last.isTerminal = true ∧
      match ts[k]? with
      | none => result = .ok []
      | some t =>
        if t.kind = .finish then result = .ok []
        else if t.kind = .fault then result = .error (.lexical last.text last.position)
        else if t.kind = .plus then
          if last.kind = .finish then
            ∃ ms, parse text = .ok ms ∧
              result = .ok (ms.drop ((ts.take k).countP (·.kind = .plus)))
          else result = .error (.lexical last.text last.position)
        else
          let expected := "'+' or end of input"
          ∃ e, result = .error e ∧ e = .unexpected .markerOrEnd t.kind t.position ∧
            e.message = s!"syntax error at {t.position}: expected {expected}, found {t.kind}" := by
  intro ts result
  have hstream : Stream .marker ts := Cursor.stream_tokens _
  have hresult : result = listOfTokens (ts.drop k) := by
    have hleft : ((TokenStream.ofString text).pull k).2.toList = ts.drop k :=
      TokenStream.toList_pull _ k
    rw [← hleft]
    exact listOfStream_eq _
  obtain ⟨last, hlast, hterminal⟩ := hstream.exists_getLast?
  refine ⟨last, hlast, hterminal, ?_⟩
  cases hk : ts[k]? with
  | none =>
    dsimp only
    rw [hresult, List.drop_eq_nil_of_le (List.getElem?_eq_none_iff.mp hk), listOfTokens]
  | some t =>
    have hdrop : ts.drop k = t :: ts.drop (k + 1) := by
      obtain ⟨hlt, rfl⟩ := List.getElem?_eq_some_iff.mp hk
      exact List.drop_eq_getElem_cons hlt
    dsimp only
    split_ifs with hfinish hfault hplus hend
    · rw [hresult, hdrop, listOfTokens_finish hfinish]
    · have ht : t.isTerminal = true := by
        rw [Token.isTerminal, hfault]
        rfl
      have heq := hstream.getLast?_of_terminal (List.mem_of_getElem? hk) ht
      rw [hlast] at heq
      cases heq
      rw [hresult, hdrop, listOfTokens_fault hfault, Token.error]
    · rcases hstream.read_or_fault hlast with ⟨-, ms, hms⟩ | ⟨hfault, -⟩
      · exact ⟨ms, hms, by rw [hresult, hstream.listOfTokens_drop hms hk hplus]⟩
      · rw [hend] at hfault
        cases hfault
    · rcases hstream.read_or_fault hlast with ⟨hfinish, -⟩ | ⟨hfault, -⟩
      · exact absurd hfinish hend
      · rw [hresult, hstream.listOfTokens_drop_fault hlast hfault hk hplus, Token.error]
    · exact ⟨_, by rw [hresult, hdrop, listOfTokens_unexpected hfinish hplus hfault], rfl, rfl⟩

end Markers
