import Markers.Proofs.Literal.Integer
import Mathlib.Data.List.Forall2

/-!
# Numbers spelled in digits

Digits that follow one another without separators, and the number that they spell. Escapes hold
their code points so, and it is the part that a decimal integer and a decimal float have in common.
-/

namespace Markers

open Integer (IsDigit digit?_eq_some_iff ofDigits_eq)

/-- The characters are digits of the base, and they denote the number. -/
def Spells (base : Nat) (cs : List Char) (n : Nat) : Prop :=
  ∃ ds, List.Forall₂ (IsDigit base) cs ds ∧ n = Nat.ofDigits base ds.reverse

variable {base n : Nat} {cs : List Char} {ds : List Nat}

theorem mapM_digit?_eq_some_iff (hbase : base ≤ 16) :
    cs.mapM (digit? base) = some ds ↔ List.Forall₂ (IsDigit base) cs ds := by
  induction cs generalizing ds with
  | nil => simp [eq_comm]
  | cons c cs ih =>
    simp only [List.mapM_cons, Option.bind_eq_bind, Option.bind_eq_some_iff, ih,
      digit?_eq_some_iff hbase]
    constructor
    · rintro ⟨d, hd, ds, hds, heq⟩
      cases heq
      exact .cons hd hds
    · intro h
      cases h with
      | cons hd hds => exact ⟨_, hd, _, hds, rfl⟩

/-- Spelling is what reading all characters as digits gives. -/
theorem spells_iff (hbase : base ≤ 16) :
    Spells base cs n ↔ ∃ ds, cs.mapM (digit? base) = some ds ∧ ofDigits base ds = n := by
  simp only [Spells, mapM_digit?_eq_some_iff hbase, ofDigits_eq, eq_comm]

/-- A number is smaller than the power of the base that its digits reach up to. -/
theorem Spells.lt (hbase : base ≤ 16) (h : Spells base cs n) : n < 16 ^ cs.length := by
  obtain ⟨ds, hds, rfl⟩ := h
  have hlt : ∀ d ∈ ds.reverse, d < 16 := by
    intro d hd
    have hds := (List.forall₂_and_left ds cs).mp hds.flip
    exact Nat.lt_of_lt_of_le (hds.1 d (List.mem_reverse.mp hd)) hbase
  calc Nat.ofDigits base ds.reverse
    _ ≤ Nat.ofDigits 16 ds.reverse := Nat.ofDigits_monotone _ hbase
    _ < 16 ^ ds.reverse.length := Nat.ofDigits_lt_base_pow_length (by decide) hlt
    _ = 16 ^ cs.length := by rw [List.length_reverse, hds.length_eq]

end Markers
