import Markers.Proofs.Token.Run

/-!
# The stages of a token stream

Between two tokens a stream is at a stage, which says how it may go on, and each token reads as what
its kind announces (`Token.Sound`). A text's tokens are a `Stream`: they pass from stage to stage
until the text ends between two markers, or a fault cuts them short at some stage.
-/

namespace Markers

/-- The stage behind a token of a kind, where the kind fits. -/
def Stage.next? : Stage → Token.Kind → Option Stage
  | marker, .plus => some identifier
  | identifier, .identifier => some assign
  | assign, .assign => some value
  | value, .listOpen => some element
  | value, k => if k.literal?.isSome then some marker else none
  | element, k => if k.literal?.isSome then some separator else none
  | separator, .comma => some element
  | separator, .listClose => some marker
  | _, _ => none

namespace Stage

theorem next?_value {k : Token.Kind} {j : Literal.Kind} (h : k.literal? = some j) :
    value.next? k = some marker := by
  cases k <;> first | rfl | cases h

theorem next?_element {k : Token.Kind} {j : Literal.Kind} (h : k.literal? = some j) :
    element.next? k = some separator := by
  cases k <;> first | rfl | cases h

theorem next?_identifier_eq {k : Token.Kind} {q : Stage} (h : identifier.next? k = some q) :
    k = .identifier ∧ q = .assign := by
  cases k <;> cases h
  exact ⟨rfl, rfl⟩

theorem next?_assign_eq {k : Token.Kind} {q : Stage} (h : assign.next? k = some q) :
    k = .assign ∧ q = .value := by
  cases k <;> cases h
  exact ⟨rfl, rfl⟩

theorem next?_marker_eq {k : Token.Kind} {q : Stage} (h : marker.next? k = some q) :
    k = .plus ∧ q = .identifier := by
  cases k <;> cases h
  exact ⟨rfl, rfl⟩

theorem next?_separator_eq {k : Token.Kind} {q : Stage} (h : separator.next? k = some q) :
    k = .comma ∧ q = .element ∨ k = .listClose ∧ q = .marker := by
  cases k <;> cases h
  · exact .inr ⟨rfl, rfl⟩
  · exact .inl ⟨rfl, rfl⟩

theorem next?_value_eq {k : Token.Kind} {q : Stage} (h : value.next? k = some q) :
    k = .listOpen ∧ q = .element ∨ (∃ j, k.literal? = some j) ∧ q = .marker := by
  cases k <;> cases h
  case listOpen => exact .inl ⟨rfl, rfl⟩
  all_goals exact .inr ⟨⟨_, rfl⟩, rfl⟩

theorem next?_element_eq {k : Token.Kind} {q : Stage} (h : element.next? k = some q) :
    (∃ j, k.literal? = some j) ∧ q = .separator := by
  cases k <;> cases h
  all_goals exact ⟨⟨_, rfl⟩, rfl⟩

end Stage

/-- Does a token of the kind announce neither an identifier nor a literal? -/
def Token.Kind.isMark : Token.Kind → Bool
  | .identifier => false
  | k => k.literal?.isNone

theorem Token.Kind.literal?_of_isMark {k : Token.Kind} (h : k.isMark = true) :
    k.literal? = none := by
  cases k <;> first | rfl | cases h

/-- The text of the token reads as what its kind announces. -/
structure Token.Sound (t : Token) : Prop where
  identifier : t.kind = .identifier → ∃ i, Identifier.parse t.text = .ok i ∧ toString i = t.text
  literal : ∀ k, t.kind.literal? = some k → ∃ x, t.literal = .ok x ∧ x.kind = k

/-- Tokens from a stage to the end of a text or to a fault. -/
inductive Stream : Stage → List Token → Prop
  | finish (p : Position) : Stream .marker [.finish p]
  | fault (h : t.kind = .fault) : Stream q [t]
  | cons (hq : q.next? t.kind = some q') (ht : t.Sound) (H : Stream q' ts) : Stream q (t :: ts)

namespace Token.Sound

theorem of_mark {t : Token} (h : t.kind.isMark = true) : t.Sound := by
  refine ⟨fun hkind => ?_, fun k hkind => ?_⟩
  · rw [hkind] at h
    cases h
  · rw [Token.Kind.literal?_of_isMark h] at hkind
    cases hkind

theorem of_announces {t : Token} {x : Literal} (ht : t.Announces x) : t.Sound := by
  have hkind := ht.kind
  refine ⟨fun h => ?_, fun k h => ⟨x, ht.literal, ?_⟩⟩
  · rw [h] at hkind
    cases hkind
  · rw [hkind] at h
    exact Option.some.inj h

theorem announces {t : Token} (h : t.Sound) {k : Literal.Kind} (hk : t.kind.literal? = some k) :
    ∃ x, t.Announces x := by
  obtain ⟨x, hx, rfl⟩ := h.literal k hk
  exact ⟨x, hx, hk⟩

theorem of_identifier {t : Token} {i : Identifier} (h1 : t.kind = .identifier)
    (h2 : Identifier.parse t.text = .ok i) : t.Sound := by
  refine ⟨fun _ => ⟨i, h2, Identifier.toString_of_parse h2⟩, fun k h => ?_⟩
  rw [h1] at h
  cases h

end Token.Sound

/-! ### Scans -/

namespace Scan

/-- The tokens of a stretch and of all text behind it. -/
def all (s : Scan) : List Token :=
  match s.resume with
  | none => s.tokens
  | some c => s.tokens ++ c.tokens

@[simp] theorem all_ofToken (t : Token) : (ofToken t).all = [t] := rfl

@[simp] theorem all_ofFault (f : Fault) (p : Position) :
    (ofFault f p).all = [⟨.fault, f.message, p⟩] := rfl

@[simp] theorem all_resumeAt (c : Cursor) : (resumeAt c).all = c.tokens := rfl

@[simp] theorem all_cons (t : Token) (s : Scan) : (s.cons t).all = t :: s.all := by
  rw [all, all, resume_cons]
  cases s.resume <;> rfl

end Scan

/-- The tokens of a run are a stream, provided that scanning goes on with one. -/
theorem Run.stream {q : Stage} {c : Cursor} {s : Scan} (H : Run q c s)
    (hresume : ∀ c', s.resume = some c' → Stream .marker c'.tokens) : Stream q s.all := by
  induction H with
  | fault => exact .fault rfl
  | finish => exact .finish _
  | lineEnd => exact hresume _ rfl
  | identifier hname _ _ ih =>
    rw [Scan.all_cons]
    exact .cons rfl (.of_identifier rfl (Identifier.parse_ofList hname)) (ih hresume)
  | bare _ ih =>
    rw [Scan.all_cons, Scan.all_cons]
    refine .cons rfl (.of_mark rfl) (.cons rfl ?_ (ih hresume))
    exact .of_announces ⟨Token.literal_true, rfl⟩
  | scalar ht _ ih =>
    rw [Scan.all_cons]
    exact .cons (Stage.next?_value ht.announces.kind) (.of_announces ht.announces) (ih hresume)
  | raw _ _ _ ih =>
    rw [Scan.all_cons]
    exact .cons rfl (.of_announces ⟨Token.literal_raw, rfl⟩) (ih hresume)
  | element ht _ ih =>
    rw [Scan.all_cons]
    exact .cons (Stage.next?_element ht.announces.kind) (.of_announces ht.announces) (ih hresume)
  | commaFault =>
    rw [Scan.all_cons]
    exact .cons rfl (.of_mark rfl) (.fault rfl)
  | assign _ _ ih | list _ _ ih | comma _ _ ih | close _ _ ih =>
    rw [Scan.all_cons]
    exact .cons rfl (.of_mark rfl) (ih hresume)

namespace Cursor

theorem tokens_eq (c : Cursor) : c.tokens = c.scan.all := by
  rw [tokens, Scan.all]
  cases c.scan.resume <;> rfl

/-- What holds of a cursor if it holds where scanning resumes holds of every cursor. -/
theorem resume_induction {P : Cursor → Prop}
    (step : ∀ c, (∀ c', c.scan.resume = some c' → P c') → P c) (c : Cursor) : P c := by
  induction hn : c.rest.length using Nat.strong_induction_on generalizing c with
  | _ n ih =>
    refine step c fun c' hresume => ih _ ?_ c' rfl
    rw [← hn]
    exact length_resume_scan hresume

/-- Where scanning commutes with a change of the text and of the tokens, so does the whole stream.
What the change asks of a text must hold of what is left of it. -/
theorem tokens_map {P : Cursor → Prop} {f : Token → Token} {g : Cursor → Cursor}
    (hscan : ∀ c, P c → (g c).scan = ⟨c.scan.tokens.map f, c.scan.resume.map g⟩)
    (hresume : ∀ c c', P c → c.scan.resume = some c' → P c') (c : Cursor) (hc : P c) :
    (g c).tokens = c.tokens.map f := by
  induction c using resume_induction with
  | step c ih =>
    rw [tokens_eq, tokens_eq, hscan c hc, Scan.all, Scan.all]
    cases hr : c.scan.resume with
    | none => rfl
    | some c' =>
      simp only [Option.map_some, List.map_append]
      rw [ih c' hr (hresume c c' hc hr)]

theorem stream_scan (c : Cursor)
    (hresume : ∀ c', c.scan.resume = some c' → Stream .marker c'.tokens) :
    Stream .marker c.scan.all := by
  have hline := c.lineStart
  generalize c.scan = scan at hline hresume
  cases hline with
  | finish => exact .finish _
  | marker =>
    rw [Scan.all_cons]
    exact .cons rfl (.of_mark rfl) ((run_marker _).stream hresume)
  | prose => exact hresume _ rfl
  | proseLine => exact hresume _ rfl

/-- The tokens of a text are a stream. -/
theorem stream_tokens (c : Cursor) : Stream .marker c.tokens := by
  induction c using resume_induction with
  | step c ih =>
    rw [tokens_eq]
    exact c.stream_scan ih

end Cursor

end Markers
