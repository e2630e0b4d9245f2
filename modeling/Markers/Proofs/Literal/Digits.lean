import Markers.Literal.Number
import Mathlib.Data.List.Basic

/-!
# Numbers that are written out

The digits of a number read as the number, in every base up to sixteen. So an integer in decimal
reads as an integer literal.
-/

namespace Markers

variable {base : Nat} {cs : List Char}

theorem digit?_digitChar {d : Nat} (hbase : base ≤ 16) (hd : d < base) :
    digit? base (Nat.digitChar d) = some d := by
  have hvalue : ∀ d : Fin 16, digit? 16 (Nat.digitChar d) = some d.val := by decide
  have hdigit := hvalue ⟨d, Nat.lt_of_lt_of_le hd hbase⟩
  simp only [digit?, Option.filter_eq_some_iff] at hdigit ⊢
  exact ⟨hdigit.1, by simpa using hd⟩

theorem mapM_digit?_append {more : List Char} {ds es : List Nat}
    (h : cs.mapM (digit? base) = some ds) (h' : more.mapM (digit? base) = some es) :
    (cs ++ more).mapM (digit? base) = some (ds ++ es) := by
  rw [List.mapM_append, h, h']
  rfl

/-- The digits of a number denote the number. -/
theorem mapM_digit?_toDigits (hlt : 1 < base) (hbase : base ≤ 16) (n : Nat) :
    ∃ ds, (Nat.toDigits base n).mapM (digit? base) = some ds ∧ ofDigits base ds = n := by
  induction n using Nat.strongRecOn with
  | ind n ih =>
    have hlast {d : Nat} (hd : d < base) : [Nat.digitChar d].mapM (digit? base) = some [d] := by
      simp [digit?_digitChar hbase hd]
    rw [Nat.toDigits_eq_if hlt]
    split
    · next hn => exact ⟨[n], hlast hn, by simp [ofDigits]⟩
    · next hn =>
      have hpos : 0 < base := by omega
      obtain ⟨ds, hds, hvalue⟩ := ih (n / base) (Nat.div_lt_self (by omega) hlt)
      refine ⟨ds ++ [n % base], mapM_digit?_append hds (hlast (Nat.mod_lt n hpos)), ?_⟩
      rw [ofDigits, List.foldl_append, ← ofDigits, hvalue]
      simp only [List.foldl_cons, List.foldl_nil]
      rw [Nat.mul_comm, Nat.div_add_mod]

theorem digit?_zero (hlt : 1 < base) (hbase : base ≤ 16) : digit? base '0' = some 0 :=
  digit?_digitChar hbase (Nat.zero_lt_of_lt hlt)

/-- Zeros in front of digits denote nothing. -/
theorem mapM_digit?_leftpad (hlt : 1 < base) (hbase : base ≤ 16) (count : Nat) {ds : List Nat}
    (h : cs.mapM (digit? base) = some ds) :
    ∃ es, (cs.leftpad count '0').mapM (digit? base) = some es ∧
      ofDigits base es = ofDigits base ds := by
  rw [List.leftpad]
  generalize count - cs.length = k
  induction k with
  | zero => exact ⟨ds, h, rfl⟩
  | succ k ih =>
    obtain ⟨es, hes, hvalue⟩ := ih
    refine ⟨0 :: es, ?_, ?_⟩
    · rw [List.replicate_succ, List.cons_append, List.mapM_cons, digit?_zero hlt hbase, hes]
      rfl
    · rw [← hvalue, ofDigits, List.foldl_cons, Nat.zero_mul, Nat.zero_add, ← ofDigits]

/-- Only zero starts with a zero. -/
theorem eq_zero_of_toDigits {n : Nat} (h : Nat.toDigits 10 n = '0' :: cs) : n = 0 := by
  induction n using Nat.strongRecOn generalizing cs with
  | ind n ih =>
    rw [Nat.toDigits_eq_if (by decide)] at h
    split at h
    · next hn =>
      have hdigit : digit? 10 (Nat.digitChar n) = some n := digit?_digitChar (by decide) hn
      rw [(List.cons.inj h).1, digit?_zero (by decide) (by decide)] at hdigit
      exact (Option.some.inj hdigit).symm
    · next hn =>
      cases hfront : Nat.toDigits 10 (n / 10) with
      | nil => exact absurd hfront Nat.toDigits_ne_nil
      | cons c rest =>
        rw [hfront] at h
        obtain ⟨rfl, -⟩ := List.cons.inj h
        have := ih (n / 10) (Nat.div_lt_self (by omega) (by decide)) hfront
        omega

namespace Integer

theorem digits?_eq_mapM (h : '_' ∉ cs) : digits? base true cs = cs.mapM (digit? base) := by
  induction cs with
  | nil => rfl
  | cons c cs ih =>
    obtain ⟨hc, hcs⟩ := not_or.mp (mt List.mem_cons.mpr h)
    rw [digits?, if_neg (Ne.symm hc), List.mapM_cons, ih hcs]

/-- Digits without underscores stand in every base. -/
theorem digits?_cons_eq_mapM {c : Char} (h : '_' ∉ c :: cs) (separable : Bool) :
    digits? base separable (c :: cs) = (c :: cs).mapM (digit? base) := by
  rw [← digits?_eq_mapM h]
  have hc : c ≠ '_' := fun hc => h (hc ▸ List.mem_cons_self)
  simp only [digits?, if_neg hc]

theorem splitBase_toDigits (n : Nat) :
    splitBase (Nat.toDigits 10 n) = (10, false, Nat.toDigits 10 n) := by
  unfold splitBase
  split
  · next heq =>
    obtain rfl := eq_zero_of_toDigits heq
    cases heq
  · rfl

theorem magnitude?_toDigits (n : Nat) : magnitude? (Nat.toDigits 10 n) = some n := by
  obtain ⟨ds, hds, hvalue⟩ := mapM_digit?_toDigits (by decide : 1 < 10) (by decide) n
  have hunderscore : '_' ∉ Nat.toDigits 10 n := Nat.underscore_not_in_toDigits
  simp only [magnitude?, splitBase_toDigits]
  cases hdigits : Nat.toDigits 10 n with
  | nil => exact absurd hdigits Nat.toDigits_ne_nil
  | cons c cs =>
    rw [hdigits] at hds hunderscore
    rw [digits?_cons_eq_mapM hunderscore, hds]
    cases ds with
    | nil => simp [List.mapM_cons, Option.bind_eq_some_iff] at hds
    | cons d ds => simp only [hvalue]

theorem splitSign_toDigits (n : Nat) :
    splitSign (Nat.toDigits 10 n) = (false, Nat.toDigits 10 n) := by
  have hdigit {c : Char} {cs : List Char} (h : Nat.toDigits 10 n = c :: cs) : c.isDigit = true :=
    Nat.isDigit_of_mem_toDigits (n := n) (by decide) (by decide) (h ▸ List.mem_cons_self)
  unfold splitSign
  split
  · next heq => exact absurd (hdigit heq) (by decide)
  · next heq => exact absurd (hdigit heq) (by decide)
  · rfl

/-- An integer in decimal is a literal of itself. -/
theorem value?_toString (v : Int) : value? (toString v).toList = some v := by
  rw [Int.toString_eq_repr, Int.repr_eq_if]
  split
  · next hv =>
    rw [Nat.toList_repr]
    simp only [value?, splitSign_toDigits, magnitude?_toDigits]
    exact congrArg some (Int.toNat_of_nonneg hv)
  · next hv =>
    rw [String.toList_append, Nat.toList_repr]
    have hsign : splitSign ("-".toList ++ Nat.toDigits 10 (-v).toNat) =
        (true, Nat.toDigits 10 (-v).toNat) := rfl
    have hneg : -((-v).toNat : Int) = v := by omega
    simp only [value?, hsign, magnitude?_toDigits]
    exact congrArg some hneg

theorem ofChars_toString (v : Int64) : ofChars (toString v.toInt).toList = .ok v := by
  simp only [ofChars, value?_toString]
  rw [if_pos ⟨v.minValue_le_toInt, v.toInt_le⟩, Int64.ofInt_toInt]

end Integer

end Markers
