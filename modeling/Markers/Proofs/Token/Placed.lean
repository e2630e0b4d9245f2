import Markers.Proofs.Grammar.Completeness

/-!
# The places of tokens

Each token of a text is a part of the text, and its position is that of the part's first character.
The parts follow one another and do not overlap (`Placed`). Only the assignment and the bool of a
bare identifier have no part of their own; they are where the identifier ends. A fault is reported
at the token before it or further on, so no position lies in front of the one before.
-/

namespace Markers

open Lexeme (EndsLine)

/-! ### Positions -/

namespace Position

/-- A place comes before another on an earlier line, or on the same line further left. -/
instance : LE Position :=
  ⟨fun p q => p.line < q.line ∨ p.line = q.line ∧ p.column ≤ q.column⟩

theorem le_rfl {p : Position} : p ≤ p := .inr ⟨rfl, Nat.le_refl _⟩

theorem le_trans {p q r : Position} (h : p ≤ q) (h' : q ≤ r) : p ≤ r := by
  rcases h with h | ⟨h, hcol⟩
  · rcases h' with h' | ⟨h', -⟩
    · exact .inl (Nat.lt_trans h h')
    · exact .inl (h' ▸ h)
  · rcases h' with h' | ⟨h', hcol'⟩
    · exact .inl (h ▸ h')
    · exact .inr ⟨h.trans h', Nat.le_trans hcol hcol'⟩

theorem le_step (p : Position) (c : Char) : p ≤ p.step c := by
  unfold step
  split
  · exact .inl (Nat.lt_succ_self _)
  · exact .inr ⟨rfl, Nat.le_succ _⟩

theorem le_advance (p : Position) (s : List Char) : p ≤ p.advance s := by
  induction s generalizing p with
  | nil => exact le_rfl
  | cons c s ih => exact le_trans (p.le_step c) (ih _)

/-- Places of a text come one after the other. -/
theorem endOf_take_le (text : List Char) {a b : Nat} (h : a ≤ b) :
    endOf (text.take a) ≤ endOf (text.take b) := by
  obtain ⟨n, rfl⟩ := Nat.exists_eq_add_of_le h
  rw [List.take_add, ← advance_endOf]
  exact le_advance _ _

theorem endOf_take_le_endOf (text : List Char) (a : Nat) :
    endOf (text.take a) ≤ endOf text := by
  calc endOf (text.take a)
    _ ≤ (endOf (text.take a)).advance (text.drop a) := le_advance _ _
    _ = endOf text := by rw [advance_endOf, List.take_append_drop]

end Position

/-! ### Tokens in a text -/

/-- A part of a text: the number of characters in front of it, and its own length. -/
structure Span where
  offset : Nat
  length : Nat
  deriving DecidableEq, Repr

/-- The offset behind a part. -/
def Span.stop (s : Span) : Nat := s.offset + s.length

/-- The token's text stands at an offset of a text, and its position is the place of that offset. -/
structure Token.IsAt (t : Token) (text : List Char) (o : Nat) : Prop where
  part : t.text.toList <+: text.drop o
  nonempty : t.text.toList ≠ []
  position : t.position = .endOf (text.take o)

/-- The part of a text that a token at an offset stands for. -/
def Token.spanAt (t : Token) (o : Nat) : Span := ⟨o, t.text.toList.length⟩

/-- Tokens up to the end of a text or to a fault, and the parts of the text that they stand for. All
parts lie behind the offset `stop`, where the part of the token before ends; that token itself is at
the offset `last`. -/
inductive Placed (text : List Char) : Nat → Nat → List Token → List Span → Prop
  | finish (last stop : Nat) : Placed text last stop [.finish (.endOf text)] []
  | fault (hlast : last ≤ o) (ho : o ≤ text.length) (message : String) :
    Placed text last stop [⟨.fault, message, .endOf (text.take o)⟩] []
  | token (hkind : t.isTerminal = false) (ht : t.IsAt text o) (ho : stop ≤ o)
    (H : Placed text o (t.spanAt o).stop ts spans) :
    Placed text last stop (t :: ts) (t.spanAt o :: spans)
  | bare (hkind : i.kind = .identifier) (hi : i.IsAt text o) (ho : stop ≤ o)
    (hend : EndsLine (text.drop (i.spanAt o).stop))
    (H : Placed text (i.spanAt o).stop (i.spanAt o).stop ts spans) :
    Placed text last stop (i :: ⟨.assign, "=", .endOf (text.take (i.spanAt o).stop)⟩ ::
      ⟨.bool, "true", .endOf (text.take (i.spanAt o).stop)⟩ :: ts) (i.spanAt o :: spans)

namespace Placed

variable {text : List Char} {last stop : Nat} {ts : List Token} {spans : List Span}

theorem weaken (H : Placed text last stop ts spans) (hlast : last' ≤ last) (hstop : stop' ≤ stop) :
    Placed text last' stop' ts spans := by
  cases H with
  | finish => exact .finish _ _
  | fault h ho => exact .fault (Nat.le_trans hlast h) ho _
  | token hkind ht ho H => exact .token hkind ht (Nat.le_trans hstop ho) H
  | bare hkind hi ho hend H => exact .bare hkind hi (Nat.le_trans hstop ho) hend H

/-- Each part lies behind the offset where the one before it ends. -/
theorem stop_le (H : Placed text last stop ts spans) : ∀ s ∈ spans, stop ≤ s.offset := by
  have hbehind {t : Token} {o : Nat} : o ≤ (t.spanAt o).stop := Nat.le_add_right _ _
  induction H with
  | finish | fault => exact List.forall_mem_nil _
  | token _ _ ho _ ih | bare _ _ ho _ _ ih =>
    refine List.forall_mem_cons.mpr ⟨ho, fun s hs => ?_⟩
    exact Nat.le_trans ho (Nat.le_trans hbehind (ih s hs))

/-- The parts are apart and in order. -/
theorem pairwise (H : Placed text last stop ts spans) :
    spans.Pairwise fun s s' => s.stop ≤ s'.offset := by
  induction H with
  | finish | fault => exact .nil
  | token _ _ _ H ih | bare _ _ _ _ H ih => exact .cons H.stop_le ih

/-- No position lies in front of that of a token before. -/
theorem sorted (H : Placed text last stop ts spans) (h : last ≤ stop) :
    (ts.map Token.position).Pairwise (· ≤ ·) ∧
      ∀ p ∈ ts.map Token.position, .endOf (text.take last) ≤ p := by
  have hbehind {t : Token} {o : Nat} : o ≤ (t.spanAt o).stop := Nat.le_add_right _ _
  -- what holds at the offset of a token holds at all offsets in front of it
  have hweaken {a b : Nat} {ps : List Position} (hab : a ≤ b)
      (hps : ∀ p ∈ ps, .endOf (text.take b) ≤ p) : ∀ p ∈ ps, .endOf (text.take a) ≤ p :=
    fun p hp => Position.le_trans (Position.endOf_take_le text hab) (hps p hp)
  induction H with
  | finish last =>
    refine ⟨List.pairwise_singleton _ _, List.forall_mem_singleton.mpr ?_⟩
    exact Position.endOf_take_le_endOf text last
  | fault hlast =>
    refine ⟨List.pairwise_singleton _ _, List.forall_mem_singleton.mpr ?_⟩
    exact Position.endOf_take_le text hlast
  | token _ ht ho _ ih =>
    obtain ⟨hsorted, hps⟩ := ih hbehind
    rw [List.map_cons, ht.position]
    refine ⟨.cons hps hsorted, List.forall_mem_cons.mpr ⟨?_, ?_⟩⟩
    · exact Position.endOf_take_le text (Nat.le_trans h ho)
    · exact hweaken (Nat.le_trans h ho) hps
  | bare _ hi ho _ _ ih =>
    obtain ⟨hsorted, hps⟩ := ih (Nat.le_refl _)
    have hbool := List.forall_mem_cons.mpr ⟨Position.le_rfl, hps⟩
    have hassign := List.forall_mem_cons.mpr ⟨Position.le_rfl, hbool⟩
    simp only [List.map_cons, hi.position]
    refine ⟨.cons (hweaken hbehind hassign) (.cons hbool (.cons hps hsorted)),
      List.forall_mem_cons.mpr ⟨?_, ?_⟩⟩
    · exact Position.endOf_take_le text (Nat.le_trans h ho)
    · exact hweaken (Nat.le_trans (Nat.le_trans h ho) hbehind) hassign

end Placed

/-! ### Scans -/

/-- The cursor stands in a text behind a number of characters. -/
structure Cursor.IsAt (c : Cursor) (text : List Char) (o : Nat) : Prop where
  rest : c.rest = text.drop o
  le : o ≤ text.length
  position : c.position = .endOf (text.take o)

/-- The tokens of a scan, and of all text behind it, are placed. -/
def Scan.Placed (text : List Char) (last stop : Nat) (s : Scan) : Prop :=
  ∃ spans, Markers.Placed text last stop s.all spans

/-- Where scanning resumes, the tokens of the text behind are placed. -/
def Scan.Resumes (text : List Char) (s : Scan) : Prop :=
  ∀ c o, s.resume = some c → c.IsAt text o → ∃ spans, Markers.Placed text o o c.tokens spans

namespace Scan.Placed

variable {text : List Char} {last stop : Nat} {s : Scan}

theorem weaken (H : s.Placed text last stop) (hlast : last' ≤ last) (hstop : stop' ≤ stop) :
    s.Placed text last' stop' := by
  obtain ⟨spans, H⟩ := H
  exact ⟨spans, H.weaken hlast hstop⟩

theorem cons {t : Token} (hkind : t.isTerminal = false) (ht : t.IsAt text o) (ho : stop ≤ o)
    (H : s.Placed text o (t.spanAt o).stop) : (s.cons t).Placed text last stop := by
  obtain ⟨spans, H⟩ := H
  refine ⟨t.spanAt o :: spans, ?_⟩
  rw [Scan.all_cons]
  exact .token hkind ht ho H

end Scan.Placed

theorem stop_spanAt (k : Token.Kind) (part : List Char) (p : Position) (o : Nat) :
    ((⟨k, String.ofList part, p⟩ : Token).spanAt o).stop = o + part.length := by
  rw [Token.spanAt, Span.stop, String.toList_ofList]

theorem Token.Announces.isTerminal {t : Token} {x : Literal} (h : t.Announces x) :
    t.isTerminal = false := by
  have hkind := h.kind
  rw [Token.isTerminal]
  cases hk : t.kind with
  | finish | fault =>
    rw [hk] at hkind
    cases hkind
  | _ => rfl

namespace Cursor

variable {c c' : Cursor} {text part : List Char} {o l : Nat} {last : Position}

theorem IsAt.moves (h : c.IsAt text o) (hmoves : c.Moves part c') :
    c'.IsAt text (o + part.length) := by
  have hdrop : text.drop o = part ++ c'.rest := h.rest.symm.trans hmoves.rest
  have htake : text.take (o + part.length) = text.take o ++ part := by
    rw [List.take_add, hdrop, List.take_left]
  refine ⟨?_, ?_, ?_⟩
  · rw [← List.drop_drop, hdrop, List.drop_left]
  · have hlength := congrArg List.length hdrop
    rw [List.length_drop, List.length_append] at hlength
    have := h.le
    omega
  · rw [htake, hmoves.endOf h.position]

theorem IsAt.token (h : c.IsAt text o) (hmoves : c.Moves part c') (hne : part ≠ [])
    (k : Token.Kind) : Token.IsAt ⟨k, String.ofList part, c.position⟩ text o := by
  refine ⟨?_, ?_, h.position⟩
  · rw [String.toList_ofList, ← h.rest, hmoves.rest]
    exact List.prefix_append _ _
  · rwa [String.toList_ofList]

/-- A token that stands for a scalar is placed at the cursor, and the cursor goes on behind it. -/
theorem IsAt.scalar {t : Token} {x : Literal} (hc : c.IsAt text o) (ht : c.IsScalar t c' part x) :
    t.isTerminal = false ∧ t.IsAt text o ∧ c'.IsAt text (t.spanAt o).stop := by
  obtain ⟨a, cs, rfl, -⟩ := ht.scalar.head
  have htoken := hc.token ht.moves (List.cons_ne_nil a cs) t.kind
  obtain ⟨kind, text, p⟩ := t
  obtain rfl : text = String.ofList (a :: cs) := ht.text
  obtain rfl : p = c.position := ht.position
  refine ⟨ht.announces.isTerminal, htoken, ?_⟩
  rw [stop_spanAt]
  exact hc.moves ht.moves

theorem place_of_scalar {f : Fault} {p : Position} (h : c.scalar = .error (f, p)) :
    p = c.position := by
  unfold Cursor.scalar at h
  split at h <;> cases h
  rfl

theorem place_of_scalarBehind {f : Fault} {p : Position}
    (h : c.scalarBehind last = .error (f, p)) : p = last ∨ p = c.position := by
  unfold scalarBehind at h
  split at h
  · cases h
    exact .inl rfl
  · exact .inr (place_of_scalar h)

theorem place_of_elementBehind {f : Fault} {p : Position}
    (h : c.elementBehind last = .error (f, p)) : p = last ∨ p = c.position := by
  unfold elementBehind at h
  split at h
  · cases h
    exact .inl rfl
  · exact .inr (place_of_scalar h)

/-- A fault is placed at the cursor or at the token in front of it. -/
theorem IsAt.placed_fault {p : Position} (hc : c.IsAt text o) (hlast : last = .endOf (text.take l))
    (hl : l ≤ o) (hp : p = last ∨ p = c.position) (f : Fault) :
    (Scan.ofFault f p).Placed text l o := by
  rcases hp with rfl | rfl
  · rw [hlast]
    exact ⟨[], .fault (Nat.le_refl _) (Nat.le_trans hl hc.le) _⟩
  · rw [hc.position]
    exact ⟨[], .fault hl hc.le _⟩

/-- A token is placed at the cursor that it is cut off from. -/
theorem IsAt.placed_cons {k : Token.Kind} {s : Scan} (hc : c.IsAt text o) (hmoves : c.Moves part c')
    (hne : part ≠ []) (hkind : k.isTerminal = false)
    (H : c'.IsAt text (o + part.length) → s.Placed text o (o + part.length)) :
    (s.cons ⟨k, String.ofList part, c.position⟩).Placed text l o := by
  refine .cons hkind (hc.token hmoves hne k) (Nat.le_refl _) ?_
  rw [stop_spanAt]
  exact H (hc.moves hmoves)

/-- Where scanning resumes behind a cursor, the tokens are placed behind it. -/
theorem IsAt.placed_resumeAt (hc : c.IsAt text o) (hl : l ≤ o) (hmoves : c.Moves part c')
    (hresumes : (Scan.resumeAt c').Resumes text) : (Scan.resumeAt c').Placed text l o := by
  obtain ⟨spans, H⟩ := hresumes c' _ rfl (hc.moves hmoves)
  have ho : o ≤ o + part.length := Nat.le_add_right _ _
  exact ⟨spans, H.weaken (Nat.le_trans hl ho) ho⟩

theorem placed_afterValue (hc : c.IsAt text o) (hlast : last = .endOf (text.take l)) (hl : l ≤ o)
    (hresumes : (c.afterValue last).Resumes text) : (c.afterValue last).Placed text l o := by
  rw [afterValue] at hresumes ⊢
  split at hresumes
  · next hrest =>
    have hend : text.take o = text := by
      rw [hc.rest, List.drop_eq_nil_iff] at hrest
      exact List.take_of_length_le hrest
    rw [hc.position, hend]
    exact ⟨[], .finish _ _⟩
  · next hrest => exact hc.placed_resumeAt hl (.behind (s := ['\n']) hrest) hresumes
  · next hrest => exact hc.placed_resumeAt hl (.behind (s := ['\r', '\n']) hrest) hresumes
  · exact hc.placed_fault hlast hl (.inl rfl) _

theorem placed_afterElements (hc : c.IsAt text o) (hlast : last = .endOf (text.take l)) (hl : l ≤ o)
    (hresumes : (c.afterElements last).Resumes text) : (c.afterElements last).Placed text l o := by
  rw [afterElements] at hresumes ⊢
  split at hresumes
  · next cs hrest =>
    refine hc.placed_cons (.behind (s := [']']) hrest) (List.cons_ne_nil _ _) rfl fun hc' => ?_
    exact placed_afterValue hc' hc.position (Nat.le_add_right _ _) hresumes
  · next cs hrest =>
    refine hc.placed_cons (.behind (s := [',']) hrest) (List.cons_ne_nil _ _) rfl fun hc' => ?_
    exact hc'.placed_fault hc.position (Nat.le_add_right _ _) (.inl rfl) _
  all_goals exact hc.placed_fault hlast hl (.inl rfl) _

theorem placed_elements (hc : c.IsAt text o) (hlast : last = .endOf (text.take l)) (hl : l ≤ o)
    (hresumes : (c.elements last).Resumes text) : (c.elements last).Placed text l o := by
  fun_induction elements last c generalizing o l with
  | case1 last c f p helem =>
    exact hc.placed_fault hlast hl (place_of_elementBehind helem) f
  | case2 last c t c' helem cs hrest ih =>
    obtain ⟨part, x, hscalar⟩ := isScalar_of_elementBehind helem
    obtain ⟨hkind, ht, hc'⟩ := hc.scalar hscalar
    refine .cons hkind ht (Nat.le_refl _) ?_
    -- the token is the comma alone, but the next element begins behind the blank that follows it
    refine hc'.placed_cons (.behind (s := [',']) hrest) (List.cons_ne_nil _ _) rfl fun _ => ?_
    have hnext := hc'.moves (.behind (s := [',', ' ']) hrest)
    exact (ih hnext hc'.position (Nat.le_add_right _ _) hresumes).weaken (Nat.le_refl _)
      (Nat.le_succ _)
  | case3 last c t c' helem =>
    obtain ⟨part, x, hscalar⟩ := isScalar_of_elementBehind helem
    obtain ⟨hkind, ht, hc'⟩ := hc.scalar hscalar
    refine .cons hkind ht (Nat.le_refl _) ?_
    exact placed_afterElements hc' ht.position (Nat.le_add_right _ _) hresumes

theorem placed_value (hc : c.IsAt text o) (hlast : last = .endOf (text.take l)) (hl : l ≤ o)
    (hresumes : (c.value last).Resumes text) : (c.value last).Placed text l o := by
  rw [value] at hresumes ⊢
  split at hresumes
  · next cs hrest =>
    refine hc.placed_cons (.behind (s := ['[']) hrest) (List.cons_ne_nil _ _) rfl fun hc' => ?_
    exact placed_elements hc' hc.position (Nat.le_add_right _ _) hresumes
  · split at hresumes
    · exact hc.placed_fault hlast hl (.inr rfl) _
    · next hraw =>
      obtain ⟨happend, hne⟩ := Lexeme.append_of_raw hraw
      refine hc.placed_cons (.behind happend.symm) hne rfl fun hc' => ?_
      exact placed_afterValue hc' hc.position (Nat.le_add_right _ _) hresumes
  · split at hresumes
    · next f p hscalar => exact hc.placed_fault hlast hl (place_of_scalarBehind hscalar) f
    · next t c' hbehind =>
      obtain ⟨part, x, hscalar⟩ := isScalar_of_scalarBehind hbehind
      obtain ⟨hkind, ht, hc'⟩ := hc.scalar hscalar
      refine .cons hkind ht (Nat.le_refl _) ?_
      exact placed_afterValue hc' ht.position (Nat.le_add_right _ _) hresumes

/-- A bare identifier, with the assignment and the bool that stand for what it leaves out. -/
theorem placed_bareMarker {i : Token} (hkind : i.kind = .identifier) (hi : i.IsAt text o)
    (hc : c.IsAt text (i.spanAt o).stop) (hend : EndsLine c.rest)
    (hresumes : c.bareMarker.Resumes text) : (c.bareMarker.cons i).Placed text l o := by
  obtain ⟨spans, H⟩ := placed_afterValue hc hc.position (Nat.le_refl _) hresumes
  refine ⟨i.spanAt o :: spans, ?_⟩
  rw [bareMarker, Scan.all_cons, Scan.all_cons, Scan.all_cons, hc.position]
  rw [hc.position] at H
  exact .bare hkind hi (Nat.le_refl _) (hc.rest ▸ hend) H

theorem placed_afterIdentifier {i : Token} (hkind : i.kind = .identifier) (hi : i.IsAt text o)
    (hc : c.IsAt text (i.spanAt o).stop) (hresumes : (c.afterIdentifier i.position).Resumes text) :
    ((c.afterIdentifier i.position).cons i).Placed text l o := by
  have hnotLast : i.isTerminal = false := by rw [Token.isTerminal, hkind]; rfl
  rw [afterIdentifier] at hresumes ⊢
  split at hresumes
  · next cs hrest =>
    refine .cons hnotLast hi (Nat.le_refl _) ?_
    refine hc.placed_cons (.behind (s := ['=']) hrest) (List.cons_ne_nil _ _) rfl fun hc' => ?_
    exact placed_value hc' hc.position (Nat.le_add_right _ _) hresumes
  · next hrest => exact placed_bareMarker hkind hi hc (.inl hrest) hresumes
  · next cs hrest =>
    exact placed_bareMarker hkind hi hc (.inr ⟨_, cs, .inl rfl, hrest⟩) hresumes
  · next cs hrest =>
    exact placed_bareMarker hkind hi hc (.inr ⟨_, cs, .inr rfl, hrest⟩) hresumes
  · refine .cons hnotLast hi (Nat.le_refl _) ?_
    exact hc.placed_fault hi.position (Nat.le_add_right _ _) (.inl rfl) _

theorem placed_marker (hc : c.IsAt text o) (hl : l ≤ o) (hresumes : c.marker.Resumes text) :
    c.marker.Placed text l o := by
  rw [marker] at hresumes ⊢
  split at hresumes
  · exact (hc.placed_fault hc.position (Nat.le_refl o) (.inr rfl) _).weaken hl (Nat.le_refl o)
  · next hname =>
    obtain ⟨happend, hne⟩ := Lexeme.append_of_identifier hname
    have hmoves := Moves.behind happend.symm
    refine placed_afterIdentifier rfl (hc.token hmoves hne _) ?_ hresumes
    rw [stop_spanAt]
    exact hc.moves hmoves

theorem placed_scan (hc : c.IsAt text o) (hresumes : c.scan.Resumes text) :
    c.scan.Placed text o o := by
  have hline := c.lineStart
  generalize c.scan = scan at hline hresumes ⊢
  cases hline with
  | finish =>
    have hend : c.position.advance c.rest = .endOf text := by
      rw [hc.position, hc.rest, Position.advance_endOf, List.take_append_drop]
    rw [hend]
    exact ⟨[], .finish _ _⟩
  | @marker indent c' _ hmoves =>
    obtain ⟨c1, hindent, hplus⟩ := hmoves.split
    have hc1 := hc.moves hindent
    rw [← hindent.position]
    refine .weaken ?_ (Nat.le_add_right o indent.length) (Nat.le_add_right o indent.length)
    refine hc1.placed_cons hplus (List.cons_ne_nil _ _) rfl fun hc' => ?_
    exact placed_marker hc' (Nat.le_add_right _ _) hresumes
  | prose hmoves | proseLine hmoves => exact hc.placed_resumeAt (Nat.le_refl _) hmoves hresumes

/-- From a place in a text on, the tokens are placed. -/
theorem placed_tokens (hc : c.IsAt text o) : ∃ spans, Markers.Placed text o o c.tokens spans := by
  induction c using resume_induction generalizing o with
  | step c ih =>
    rw [tokens_eq]
    exact placed_scan hc fun c' o' h hc' => ih c' h hc'

end Cursor

/-- Each token of a text stands where its position says, apart from the other tokens and behind
those before it. No position lies in front of the one before. -/
theorem tokenize_placed (text : String) :
    (∃ spans, Placed text.toList 0 0 (tokenize text) spans ∧
      spans.Pairwise fun s s' => s.stop ≤ s'.offset) ∧
    ((tokenize text).map Token.position).Pairwise (· ≤ ·) := by
  have hc : (Cursor.ofString text).IsAt text.toList 0 := ⟨rfl, Nat.zero_le _, rfl⟩
  obtain ⟨spans, H⟩ := Cursor.placed_tokens hc
  exact ⟨⟨spans, H, H.pairwise⟩, (H.sorted (Nat.le_refl _)).1⟩

end Markers
