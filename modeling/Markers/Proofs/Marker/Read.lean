import Markers.Marker

/-!
# Reading tokens

What each reader of tokens does with the tokens in front of it. A fault among them is its error.
-/

namespace Markers

variable {t s i a : Token} {ts : List Token} {x : Literal}

theorem bind_eq_ok_iff {y : Except ε α} {f : α → Except ε β} {b : β} :
    y.bind f = .ok b ↔ ∃ a, y = .ok a ∧ f a = .ok b := by
  cases y <;> simp [Except.bind]

/-- The error that a fault token stands for. -/
def Token.error (t : Token) : ParseError := .lexical t.text t.position

theorem Token.unexpected_fault (h : t.kind = .fault) (expected : Expectation) :
    t.unexpected expected = t.error := by
  rw [Token.unexpected, if_pos h, Token.error]

theorem Token.literal_fault (h : t.kind = .fault) : t.literal = .error t.error := by
  rw [← Token.unexpected_fault h .value]
  simp only [Token.literal, h]

namespace Literal

theorem elementsOfTokens_fault (h : t.kind = .fault) :
    elementsOfTokens (t :: ts) = .error t.error := by
  cases ts <;> simp only [elementsOfTokens, Token.literal_fault h]

theorem elementsOfTokens_close (ht : t.literal = .ok x) (hs : s.kind = .listClose) :
    elementsOfTokens (t :: s :: ts) = .ok ([x], ts) := by
  simp only [elementsOfTokens, ht, hs]

theorem elementsOfTokens_comma (ht : t.literal = .ok x) (hs : s.kind = .comma) :
    elementsOfTokens (t :: s :: ts) =
      (elementsOfTokens ts).map fun (xs, rest) => (x :: xs, rest) := by
  simp only [elementsOfTokens, ht, hs]
  cases elementsOfTokens ts <;> rfl

theorem elementsOfTokens_separator_fault (ht : t.literal = .ok x) (hs : s.kind = .fault) :
    elementsOfTokens (t :: s :: ts) = .error s.error := by
  rw [← Token.unexpected_fault hs .separator]
  simp only [elementsOfTokens, ht, hs]

theorem ofTokens_scalar (ht : t.literal = .ok x) : ofTokens (t :: ts) = .ok (x, ts) := by
  have hne : t.kind ≠ .listOpen := by
    intro h
    simp [Token.literal, h] at ht
  rw [ofTokens, if_neg hne, ht]
  rfl

theorem ofTokens_listOpen (ht : t.kind = .listOpen) :
    ofTokens (t :: ts) = (elementsOfTokens ts).map fun (xs, rest) => (.list xs, rest) := by
  rw [ofTokens, if_pos ht]

theorem ofTokens_fault (h : t.kind = .fault) : ofTokens (t :: ts) = .error t.error := by
  rw [ofTokens, if_neg (by simp [h]), Token.literal_fault h]
  rfl

end Literal

namespace Marker

variable {start : Position} {name : Identifier}

theorem behindPlus_fault (h : t.kind = .fault) : behindPlus start (t :: ts) = .error t.error := by
  rw [behindPlus, if_pos (by simp [h]), Token.unexpected_fault h]

theorem behindPlus_assign_fault (hi : i.kind = .identifier)
    (hn : Identifier.parse i.text = .ok name) (h : t.kind = .fault) :
    behindPlus start (i :: t :: ts) = .error t.error := by
  simp [behindPlus, hi, hn, h, Token.unexpected_fault h]

theorem behindPlus_assign (hi : i.kind = .identifier) (hn : Identifier.parse i.text = .ok name)
    (ha : a.kind = .assign) :
    behindPlus start (i :: a :: ts) =
      (Literal.ofTokens ts).map fun (x, rest) => (⟨name, x, start⟩, rest) := by
  simp [behindPlus, hi, hn, ha]

/-- A marker that is read is an identifier, an assignment and a value. -/
theorem behindPlus_eq_ok {m : Marker} {rest : List Token}
    (h : behindPlus start ts = .ok (m, rest)) :
    ∃ i a ts', ts = i :: a :: ts' ∧ i.kind = .identifier ∧
      Identifier.parse i.text = .ok m.identifier ∧ a.kind = .assign ∧
      Literal.ofTokens ts' = .ok (m.value, rest) ∧ m.position = start := by
  unfold behindPlus at h
  split at h
  · cases h
  · next i ts =>
    split at h
    · cases h
    · next hi =>
      split at h
      · cases h
      · next name hname =>
        split at h
        · cases h
        · next a ts =>
          split at h
          · cases h
          · next ha =>
            obtain ⟨⟨x, r⟩, hx, heq⟩ := map_eq_ok_iff.mp h
            cases heq
            exact ⟨i, a, ts, rfl, Decidable.not_not.mp hi, hname, Decidable.not_not.mp ha, hx, rfl⟩

theorem listOfTokens_finish (h : t.kind = .finish) : listOfTokens (t :: ts) = .ok [] := by
  rw [listOfTokens]
  simp only [h]

theorem listOfTokens_plus (h : t.kind = .plus) :
    listOfTokens (t :: ts) =
      (behindPlus t.position ts).bind fun (m, rest) => (listOfTokens rest).map (m :: ·) := by
  rw [listOfTokens]
  simp only [h]
  cases behindPlus t.position ts <;> rfl

/-- Nothing else may stand between two markers. -/
theorem listOfTokens_misplaced (hfinish : t.kind ≠ .finish) (hplus : t.kind ≠ .plus) :
    listOfTokens (t :: ts) = .error (t.unexpected .markerOrEnd) := by
  rw [listOfTokens]
  split
  · next h => exact absurd h hfinish
  · next h => exact absurd h hplus
  · rfl

theorem listOfTokens_fault (h : t.kind = .fault) : listOfTokens (t :: ts) = .error t.error := by
  rw [listOfTokens_misplaced (by simp [h]) (by simp [h]), Token.unexpected_fault h]

theorem listOfTokens_unexpected (hfinish : t.kind ≠ .finish) (hplus : t.kind ≠ .plus)
    (hfault : t.kind ≠ .fault) :
    listOfTokens (t :: ts) = .error (.unexpected .markerOrEnd t.kind t.position) := by
  rw [listOfTokens_misplaced hfinish hplus, Token.unexpected, if_neg hfault]

end Marker

end Markers
