import Markers.Proofs.Literal.Digits
import Markers.Proofs.Literal.Number
import Mathlib.Data.Nat.Digits.Defs

/-!
# What integer literals denote

The grammar of integer literals gives each of them its number (`Denotes`): digits count in their
base, the most significant first, and a sign applies to all of them. A text reads as an integer
exactly if the grammar gives it a number and 64 bits hold the number (`Number.classify_eq_int_iff`).
-/

namespace Markers.Integer

/-- The value of a digit in a base. Letters stand for the values from ten on, in either case. -/
def IsDigit (base : Nat) (c : Char) (d : Nat) : Prop :=
  d < base ∧ (c = Nat.digitChar d ∨ c = (Nat.digitChar d).toUpper)

/-- Digits, each of which may stand behind an underscore. -/
inductive Digits (base : Nat) : List Char → List Nat → Prop
  | nil : Digits base [] []
  | digit (hc : IsDigit base c d) (H : Digits base cs ds) : Digits base (c :: cs) (d :: ds)
  | separated (hc : IsDigit base c d) (H : Digits base cs ds) :
    Digits base ('_' :: c :: cs) (d :: ds)

/-- The letters that name a base. -/
inductive BaseLetter : Char → Nat → Prop
  | hex : BaseLetter 'x' 16
  | upperHex : BaseLetter 'X' 16
  | octal : BaseLetter 'o' 8
  | upperOctal : BaseLetter 'O' 8
  | binary : BaseLetter 'b' 2
  | upperBinary : BaseLetter 'B' 2

/-- An integer literal without a sign, and the number that its digits denote. -/
inductive Unsigned : List Char → Nat → Prop
  | zero : Unsigned ['0'] 0
  | decimal (hd : d ≠ 0) (hc : IsDigit 10 c d) (H : Digits 10 cs ds) :
    Unsigned (c :: cs) (Nat.ofDigits 10 (d :: ds).reverse)
  | based (hb : BaseLetter c base) (hne : ds ≠ []) (H : Digits base cs ds) :
    Unsigned ('0' :: c :: cs) (Nat.ofDigits base ds.reverse)
  | oldOctal (hne : ds ≠ []) (H : Digits 8 cs ds) :
    Unsigned ('0' :: cs) (Nat.ofDigits 8 ds.reverse)

/-- An integer literal and its number. -/
inductive Denotes : List Char → Int → Prop
  | unsigned (H : Unsigned cs n) : Denotes cs n
  | plus (H : Unsigned cs n) : Denotes ('+' :: cs) n
  | minus (H : Unsigned cs n) : Denotes ('-' :: cs) (-n)

variable {base : Nat} {c : Char} {cs : List Char} {d : Nat} {ds : List Nat}

/-! ### Digits -/

theorem ofDigits_eq (base : Nat) (ds : List Nat) :
    ofDigits base ds = Nat.ofDigits base ds.reverse := by
  rw [ofDigits, Nat.ofDigits_eq_foldr, List.foldr_reverse]
  simp only [Nat.cast_id, Nat.mul_comm, Nat.add_comm]

theorem digit?_sixteen : digit? 16 c = some d ↔ IsDigit 16 c d := by
  constructor
  · intro h
    have hd : d < 16 := lt_of_digit? h
    have hc : c.toNat < 123 := by
      have halphanum := isAlphanum_iff.mp (isAlphanum_of_digit? h)
      omega
    -- no digit is beyond the letters of ASCII, so the digits can be gone through
    have hchar : ∀ n < 123, ∀ d < 16, digit? 16 (Char.ofNat n) = some d →
        Char.ofNat n = Nat.digitChar d ∨ Char.ofNat n = (Nat.digitChar d).toUpper := by decide
    rw [← Char.ofNat_toNat c] at h ⊢
    exact ⟨hd, hchar _ hc _ hd h⟩
  · rintro ⟨hd, rfl | rfl⟩
    · exact digit?_digitChar (Nat.le_refl 16) hd
    · have hupper : ∀ d < 16, digit? 16 (Nat.digitChar d).toUpper = some d := by decide
      exact hupper d hd

/-- A smaller base has fewer digits, and they have the same values. -/
theorem digit?_of_le (hbase : base ≤ 16) :
    digit? base c = some d ↔ d < base ∧ digit? 16 c = some d := by
  simp only [digit?, Option.filter_eq_some_iff, decide_eq_true_eq]
  constructor
  · rintro ⟨h, hd⟩
    exact ⟨hd, h, by omega⟩
  · rintro ⟨hd, h, _⟩
    exact ⟨h, hd⟩

theorem digit?_eq_some_iff (hbase : base ≤ 16) : digit? base c = some d ↔ IsDigit base c d := by
  rw [digit?_of_le hbase, digit?_sixteen, IsDigit, IsDigit]
  constructor
  · rintro ⟨hd, _, hc⟩
    exact ⟨hd, hc⟩
  · rintro ⟨hd, hc⟩
    exact ⟨hd, by omega, hc⟩

theorem IsDigit.ne_underscore (hbase : base ≤ 16) (h : IsDigit base c d) : c ≠ '_' := by
  rintro rfl
  rw [← digit?_eq_some_iff hbase] at h
  simp [digit?] at h

/-- A digit goes in front of digits, also where an underscore has just been read. -/
theorem digits?_cons (hbase : base ≤ 16) (h : IsDigit base c d) (separable : Bool) :
    digits? base separable (c :: cs) = (digits? base true cs).map (d :: ·) := by
  rw [digits?, if_neg (h.ne_underscore hbase), (digit?_eq_some_iff hbase).mpr h]
  cases digits? base true cs <;> rfl

theorem digits?_of_digits (hbase : base ≤ 16) (h : Digits base cs ds) :
    digits? base true cs = some ds := by
  induction h with
  | nil => rfl
  | digit hc H ih => rw [digits?_cons hbase hc, ih, Option.map_some]
  | separated hc H ih =>
    rw [digits?, if_pos rfl, if_pos rfl, digits?_cons hbase hc, ih, Option.map_some]

/-- What is read as digits. Where no underscore may come next, one has come before. -/
theorem digits_of_digits? (hbase : base ≤ 16) {separable : Bool}
    (h : digits? base separable cs = some ds) :
    Digits base (if separable then cs else '_' :: cs) ds := by
  fun_induction digits? base separable cs generalizing ds with
  | case1 =>
    cases h
    exact .nil
  | case2 | case4 => cases h
  | case3 cs ih => exact ih h
  | case5 separable c cs hc ih =>
    simp only [Option.bind_eq_bind, Option.bind_eq_some_iff] at h
    obtain ⟨d, hd, ds, hds, heq⟩ := h
    cases heq
    rw [digit?_eq_some_iff hbase] at hd
    cases separable with
    | true => exact .digit hd (ih hds)
    | false => exact .separated hd (ih hds)

/-! ### Unsigned literals -/

theorem magnitude?_eq_some_iff {body : List Char} {separable : Bool} {n : Nat}
    (hbase : splitBase body = (base, separable, cs)) :
    magnitude? body = some n ↔
      ∃ ds, ds ≠ [] ∧ digits? base separable cs = some ds ∧ n = Nat.ofDigits base ds.reverse := by
  simp only [magnitude?, hbase]
  split
  · next h => simp [h]
  · next h => simp [h]
  · next ds hne h => simpa [h, ofDigits_eq, eq_comm] using fun _ => hne

theorem splitBase_baseLetter (hb : BaseLetter c base) :
    splitBase ('0' :: c :: cs) = (base, true, cs) := by
  cases hb <;> rfl

/-- A zero with more behind it is the old form of octal, unless a letter names the base. -/
theorem splitBase_oldOctal (hb : ∀ base, ¬BaseLetter c base) :
    splitBase ('0' :: c :: cs) = (8, true, c :: cs) := by
  have hx : ¬(c = 'x' ∨ c = 'X') := by
    rintro (rfl | rfl)
    · exact hb 16 .hex
    · exact hb 16 .upperHex
  have ho : ¬(c = 'o' ∨ c = 'O') := by
    rintro (rfl | rfl)
    · exact hb 8 .octal
    · exact hb 8 .upperOctal
  have hb : ¬(c = 'b' ∨ c = 'B') := by
    rintro (rfl | rfl)
    · exact hb 2 .binary
    · exact hb 2 .upperBinary
  rw [splitBase, if_neg hx, if_neg ho, if_neg hb]

theorem splitBase_decimal {body : List Char} (h : ∀ c cs, body ≠ '0' :: c :: cs) :
    splitBase body = (10, false, body) := by
  unfold splitBase
  split
  · next c cs => exact absurd rfl (h c cs)
  · rfl

theorem BaseLetter.base_le (hb : BaseLetter c base) : base ≤ 16 := by
  cases hb <;> decide

theorem BaseLetter.not_digits (hb : BaseLetter c base) : ¬Digits 8 (c :: cs) ds := by
  intro h
  cases h with
  | digit hc H =>
    have hdigit := (digit?_eq_some_iff (by decide)).mpr hc
    cases hb <;> cases hdigit
  | separated => cases hb

/-- A literal is read as the number that it denotes. -/
theorem magnitude?_of_unsigned {n : Nat} (h : Unsigned cs n) : magnitude? cs = some n := by
  cases h with
  | zero => rfl
  | @decimal d c cs ds hd hc H =>
    have hzero : c ≠ '0' := by
      rintro rfl
      have hdigit := (digit?_eq_some_iff (by decide)).mpr hc
      cases hdigit
      exact hd rfl
    have hbase : splitBase (c :: cs) = (10, false, c :: cs) :=
      splitBase_decimal fun _ _ heq => hzero (List.cons.inj heq).1
    refine (magnitude?_eq_some_iff hbase).mpr ⟨d :: ds, List.cons_ne_nil _ _, ?_, rfl⟩
    rw [digits?_cons (by decide) hc, digits?_of_digits (by decide) H, Option.map_some]
  | @based c base ds cs hb hne H =>
    exact (magnitude?_eq_some_iff (splitBase_baseLetter hb)).mpr
      ⟨ds, hne, digits?_of_digits hb.base_le H, rfl⟩
  | @oldOctal ds cs hne H =>
    cases cs with
    | nil =>
      cases H
      exact absurd rfl hne
    | cons c cs =>
      have hb (base : Nat) : ¬BaseLetter c base := fun hb => hb.not_digits H
      exact (magnitude?_eq_some_iff (splitBase_oldOctal hb)).mpr
        ⟨ds, hne, digits?_of_digits (by decide) H, rfl⟩

/-- What is read as a number denotes it. -/
theorem unsigned_of_magnitude? {n : Nat} (h : magnitude? cs = some n) : Unsigned cs n := by
  by_cases hzero : ∃ c rest, cs = '0' :: c :: rest
  · obtain ⟨c, rest, rfl⟩ := hzero
    by_cases hb : ∃ base, BaseLetter c base
    · obtain ⟨base, hb⟩ := hb
      obtain ⟨ds, hne, hds, rfl⟩ := (magnitude?_eq_some_iff (splitBase_baseLetter hb)).mp h
      exact .based hb hne (digits_of_digits? hb.base_le hds)
    · have hbase : splitBase ('0' :: c :: rest) = (8, true, c :: rest) :=
        splitBase_oldOctal (not_exists.mp hb)
      obtain ⟨ds, hne, hds, rfl⟩ := (magnitude?_eq_some_iff hbase).mp h
      exact .oldOctal hne (digits_of_digits? (by decide) hds)
  · simp only [not_exists] at hzero
    obtain ⟨ds, -, hds, rfl⟩ := (magnitude?_eq_some_iff (splitBase_decimal hzero)).mp h
    -- no underscore may come first, so the digits read as if one had just come
    have H : Digits 10 ('_' :: cs) ds := digits_of_digits? (by decide) hds
    cases H with
    | digit hc => exact absurd rfl (hc.ne_underscore (by decide))
    | @separated c d cs ds hc H =>
      by_cases hd : d = 0
      · obtain rfl := hd
        obtain rfl : c = '0' := or_self_iff.mp hc.2
        cases H with
        | nil => exact .zero
        | _ => exact absurd rfl (hzero _ _)
      · exact .decimal hd hc H

/-! ### Signs and bounds -/

theorem IsDigit.ne_sign (h : IsDigit 10 c d) : c ≠ '-' ∧ c ≠ '+' := by
  rw [← digit?_eq_some_iff (by decide)] at h
  constructor
  · rintro rfl
    cases h
  · rintro rfl
    cases h

theorem Unsigned.splitSign_eq {n : Nat} (h : Unsigned cs n) : splitSign cs = (false, cs) := by
  cases h with
  | zero | based | oldOctal => rfl
  | decimal hd hc =>
    obtain ⟨hminus, hplus⟩ := hc.ne_sign
    unfold splitSign
    split
    · next heq => exact absurd (List.cons.inj heq).1 hminus
    · next heq => exact absurd (List.cons.inj heq).1 hplus
    · rfl

theorem value?_eq_some {v : Int} :
    value? cs = some v ↔ ∃ n : Nat, magnitude? (splitSign cs).2 = some n ∧
      v = if (splitSign cs).1 then -(n : Int) else n := by
  constructor
  · intro h
    simp only [value?, Option.map_eq_some_iff, Option.bind_eq_bind, Option.bind_eq_some_iff] at h
    obtain ⟨_, ⟨n, hn, heq⟩, rfl⟩ := h
    cases heq
    exact ⟨n, hn, rfl⟩
  · rintro ⟨n, hn, rfl⟩
    simp only [value?, hn]
    rfl

theorem value?_eq_some_iff {v : Int} : value? cs = some v ↔ Denotes cs v := by
  rw [value?_eq_some]
  constructor
  · rintro ⟨n, hn, rfl⟩
    have H := unsigned_of_magnitude? hn
    unfold splitSign at H ⊢
    split at H
    · exact .minus H
    · exact .plus H
    · exact .unsigned H
  · intro h
    cases h with
    | @unsigned cs n H =>
      rw [H.splitSign_eq]
      exact ⟨n, magnitude?_of_unsigned H, rfl⟩
    | @plus cs n H | @minus cs n H => exact ⟨n, magnitude?_of_unsigned H, rfl⟩

theorem ofChars_eq_ok_iff {v : Int64} : ofChars cs = .ok v ↔ Denotes cs v.toInt := by
  rw [← value?_eq_some_iff]
  constructor
  · intro h
    unfold ofChars at h
    split at h
    · cases h
    · next n hn =>
      split at h <;> cases h
      next hbounds => rw [hn, Int64.toInt_ofInt_of_le hbounds.1 (Int.lt_of_le_sub_one hbounds.2)]
  · intro h
    simp only [ofChars, h]
    rw [if_pos ⟨v.minValue_le_toInt, v.toInt_le⟩, Int64.ofInt_toInt]

end Markers.Integer

namespace Markers.Number

theorem classify_eq_int {text : String} {v : Int64} :
    classify text = .ok (.int v) ↔ Integer.ofChars text.toList = .ok v := by
  unfold classify ofChars
  constructor
  · intro h
    split at h
    · next hv =>
      cases h
      exact hv
    · cases h
    · cases h
    · split at h
      · cases h
      · split at h <;> cases h
  · intro h
    rw [h]

/-- A text reads as an integer exactly if it denotes the integer, and 64 signed bits hold it. -/
theorem classify_eq_int_iff (text : String) (n : Int) :
    (∃ v : Int64, v.toInt = n ∧ classify text = .ok (.int v)) ↔
      Integer.Denotes text.toList n ∧ -2 ^ 63 ≤ n ∧ n ≤ 2 ^ 63 - 1 := by
  simp only [classify_eq_int, Integer.ofChars_eq_ok_iff]
  constructor
  · rintro ⟨v, rfl, h⟩
    exact ⟨h, v.le_toInt, Int.le_sub_one_of_lt v.toInt_lt⟩
  · rintro ⟨h, hmin, hmax⟩
    have hv : (Int64.ofInt n).toInt = n := Int64.toInt_ofInt_of_le hmin (by omega)
    exact ⟨.ofInt n, hv, hv.symm ▸ h⟩

end Markers.Number
