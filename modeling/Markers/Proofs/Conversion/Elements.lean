import Markers.Conversion.Family
import Markers.Token.Lexeme
import Mathlib.Data.List.Forall2

/-!
# The elements of a list

The elements of a list convert one after the other. Either all of them do, or the conversion stops
at the first that does not (`FirstFailure`) and reports its index with its error.
-/

namespace Markers

/-- Of the literals the one at the index is the first that does not convert. -/
structure FirstFailure (convert : Literal → Except ConversionError Value) (xs : List Literal)
    (index : Nat) (cause : ConversionError) : Prop where
  fails : xs[index]?.map convert = some (.error cause)
  earlier : ∀ i < index, ∃ v, xs[i]?.map convert = some (.ok v)

variable {convert : Literal → Except ConversionError Value} {x : Literal} {xs : List Literal}
  {i : Nat} {vs : List Value} {v : Value} {e : ConversionError}

namespace FirstFailure

theorem head (h : convert x = .error e) : FirstFailure convert (x :: xs) 0 e where
  fails := by rw [List.getElem?_cons_zero, Option.map_some, h]
  earlier := nofun

/-- Nothing behind the first failure matters. -/
theorem of_head (h : convert x = .error e) {cause : ConversionError}
    (H : FirstFailure convert (x :: xs) i cause) : i = 0 ∧ cause = e := by
  cases i with
  | zero =>
    have hfails := H.fails
    rw [List.getElem?_cons_zero, Option.map_some, h] at hfails
    cases hfails
    exact ⟨rfl, rfl⟩
  | succ i =>
    obtain ⟨v, hv⟩ := H.earlier 0 (Nat.succ_pos i)
    rw [List.getElem?_cons_zero, Option.map_some, h] at hv
    cases hv

theorem cons_iff (h : convert x = .ok v) :
    FirstFailure convert (x :: xs) (i + 1) e ↔ FirstFailure convert xs i e := by
  constructor
  · intro H
    refine ⟨H.fails, fun j hj => ?_⟩
    exact H.earlier (j + 1) (Nat.succ_lt_succ hj)
  · intro H
    refine ⟨H.fails, fun j hj => ?_⟩
    cases j with
    | zero => exact ⟨v, by rw [List.getElem?_cons_zero, Option.map_some, h]⟩
    | succ j => exact H.earlier j (Nat.lt_of_succ_lt_succ hj)

theorem pos (h : convert x = .ok v) (H : FirstFailure convert (x :: xs) i e) :
    ∃ j, i = j + 1 := by
  cases i with
  | zero =>
    have hfails := H.fails
    rw [List.getElem?_cons_zero, Option.map_some, h] at hfails
    cases hfails
  | succ j => exact ⟨j, rfl⟩

end FirstFailure

namespace Family

/-- A list converts if all of its elements do, to their values in the same order. -/
theorem ofElements_eq_ok_iff :
    ofElements convert i xs = .ok vs ↔ List.Forall₂ (fun v x => convert x = .ok v) vs xs := by
  induction xs generalizing i vs with
  | nil => simp [ofElements, eq_comm]
  | cons x xs ih =>
    rw [ofElements, List.forall₂_cons_right_iff]
    constructor
    · intro h
      split at h
      · cases h
      · next v hv =>
        obtain ⟨vs, hvs, rfl⟩ := map_eq_ok_iff.mp h
        exact ⟨v, vs, hv, ih.mp hvs, rfl⟩
    · rintro ⟨v, vs, hv, hvs, rfl⟩
      rw [hv]
      exact map_eq_ok_iff.mpr ⟨vs, ih.mpr hvs, rfl⟩

/-- A list fails with the first of its elements that fails. -/
theorem ofElements_eq_error_iff :
    ofElements convert i xs = .error e ↔
      ∃ k cause, FirstFailure convert xs k cause ∧ e = .element (i + k) cause := by
  induction xs generalizing i with
  | nil =>
    constructor
    · intro h
      cases h
    · rintro ⟨k, cause, H, -⟩
      cases H.fails
  | cons x xs ih =>
    rw [ofElements]
    cases hx : convert x with
    | error e' =>
      constructor
      · intro h
        cases h
        exact ⟨0, e', .head hx, rfl⟩
      · rintro ⟨k, cause, H, rfl⟩
        obtain ⟨rfl, rfl⟩ := H.of_head hx
        rfl
    | ok v =>
      rw [map_eq_error_iff, ih]
      constructor
      · rintro ⟨k, cause, H, rfl⟩
        refine ⟨k + 1, cause, (FirstFailure.cons_iff hx).mpr H, ?_⟩
        rw [Nat.add_assoc, Nat.add_comm 1 k]
      · rintro ⟨k, cause, H, rfl⟩
        obtain ⟨j, rfl⟩ := H.pos hx
        refine ⟨j, cause, (FirstFailure.cons_iff hx).mp H, ?_⟩
        rw [Nat.add_assoc, Nat.add_comm 1 j]

end Family

end Markers
