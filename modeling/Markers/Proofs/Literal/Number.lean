import Markers.Token.Lexeme
import Mathlib.Data.List.Basic
import Mathlib.Data.List.TakeWhile

/-!
# The characters of numeric literals

A numeric literal starts with a digit, a sign or a point, and none of its characters is white space
or divides or closes a list (`Numeric`). So its extent in a text is plain from what follows it.
-/

namespace Markers

open Lexeme (isNumberChar startsNumber)

/-- The shape that all numeric literals share. -/
structure Numeric (text : List Char) : Prop where
  head : ∃ c cs, text = c :: cs ∧ startsNumber c = true
  chars : ∀ c ∈ text, isNumberChar c = true

/-- A character of a class is none that is outside of it. -/
theorem ne_of_class {p : Char → Bool} {c a : Char} (hc : p c = true) (ha : p a = false) :
    c ≠ a := by
  rintro rfl
  rw [hc] at ha
  cases ha

theorem isBlank_eq_false {c : Char} (h1 : 0x21 ≤ c.toNat) (h2 : c.toNat ≤ 0x7e) :
    isBlank c = false := by
  simp only [isBlank, blankRanges, List.any_cons, List.any_nil, Bool.or_false]
  simp
  omega

theorem isAlphanum_iff {c : Char} : c.isAlphanum = true ↔
    65 ≤ c.toNat ∧ c.toNat ≤ 90 ∨ 97 ≤ c.toNat ∧ c.toNat ≤ 122 ∨ 48 ≤ c.toNat ∧ c.toNat ≤ 57 := by
  have heq : c.isAlphanum = (decide (65 ≤ c.val ∧ c.val ≤ 90) ||
      (decide (97 ≤ c.val) && decide (c.val ≤ 122)) ||
      (decide (48 ≤ c.val) && decide (c.val ≤ 57))) := rfl
  rw [heq]
  simp [UInt32.le_iff_toNat_le, or_assoc]

theorem isNumberChar_of_isAlphanum {c : Char} (h : c.isAlphanum = true) :
    isNumberChar c = true := by
  have hb : isBlank c = false := by
    rw [isAlphanum_iff] at h
    exact isBlank_eq_false (by omega) (by omega)
  have h1 : c ≠ ',' := ne_of_class h rfl
  have h2 : c ≠ ']' := ne_of_class h rfl
  simp [isNumberChar, hb, h1, h2]

theorem isNumberChar_of_isDigit {c : Char} (h : c.isDigit = true) : isNumberChar c = true :=
  isNumberChar_of_isAlphanum (by simp [Char.isAlphanum, h])

theorem startsNumber_of_isDigit {c : Char} (h : c.isDigit = true) : startsNumber c = true := by
  simp [startsNumber, h]

theorem isAlphanum_of_digit? {base : Nat} {c : Char} {d : Nat} (h : digit? base c = some d) :
    c.isAlphanum = true := by
  simp only [digit?, Option.filter_eq_some_iff] at h
  rw [isAlphanum_iff]
  simp only [Char.le_def, UInt32.le_iff_toNat_le] at h
  simp at h
  grind

theorem isDigit_of_digit? {c : Char} {d : Nat} (h : digit? 10 c = some d) : c.isDigit = true := by
  simp only [digit?, Option.filter_eq_some_iff] at h
  simp only [Char.isDigit, Bool.and_eq_true, decide_eq_true_eq, ge_iff_le]
  simp only [Char.le_def, UInt32.le_iff_toNat_le] at h ⊢
  simp at h ⊢
  grind

/-! ### Signs -/

/-- A sign is one of two characters, if there is one. -/
theorem splitSign_cases (text : List Char) :
    (∃ c, (c = '-' ∨ c = '+') ∧ text = c :: (splitSign text).2) ∨ text = (splitSign text).2 := by
  unfold splitSign
  split
  · exact .inl ⟨'-', .inl rfl, rfl⟩
  · exact .inl ⟨'+', .inr rfl, rfl⟩
  · exact .inr rfl

/-- What holds of both signs and of all that is behind the sign holds of all characters. -/
theorem forall_mem_of_splitSign {p : Char → Prop} {text : List Char} (hminus : p '-')
    (hplus : p '+') (h : ∀ c ∈ (splitSign text).2, p c) : ∀ c ∈ text, p c := by
  rcases splitSign_cases text with ⟨c, hc, heq⟩ | heq
  · rw [heq]
    refine List.forall_mem_cons.mpr ⟨?_, h⟩
    rcases hc with rfl | rfl
    · exact hminus
    · exact hplus
  · rwa [heq]

theorem Numeric.of_splitSign {text : List Char} (h : Numeric (splitSign text).2) :
    Numeric text := by
  refine ⟨?_, forall_mem_of_splitSign rfl rfl h.chars⟩
  rcases splitSign_cases text with ⟨c, hc, heq⟩ | heq
  · refine ⟨c, _, heq, ?_⟩
    rcases hc with rfl | rfl <;> rfl
  · rw [heq]
    exact h.head

/-! ### Integers -/

namespace Integer

theorem isNumberChar_of_digits? {base : Nat} {separable : Bool} {cs : List Char} {ds : List Nat}
    (h : digits? base separable cs = some ds) : ∀ c ∈ cs, isNumberChar c = true := by
  fun_induction digits? base separable cs generalizing ds with
  | case1 | case2 => simp
  | case3 cs ih =>
    intro c hc
    rcases List.mem_cons.mp hc with rfl | hc
    · rfl
    · exact ih h c hc
  | case4 => cases h
  | case5 _ a cs ha ih =>
    simp only [Option.bind_eq_bind, Option.bind_eq_some_iff] at h
    obtain ⟨d, hd, ds, hds, -⟩ := h
    intro c hc
    rcases List.mem_cons.mp hc with rfl | hc
    · exact isNumberChar_of_isAlphanum (isAlphanum_of_digit? hd)
    · exact ih hds c hc

/-- The digits of a decimal literal start with a digit. -/
theorem head_of_digits? {cs : List Char} {ds : List Nat} (h : digits? 10 false cs = some ds) :
    ∃ c rest, cs = c :: rest ∧ c.isDigit = true := by
  cases cs with
  | nil => cases h
  | cons c rest =>
    by_cases hc : c = '_'
    · simp [digits?, hc] at h
    · simp only [digits?, hc, if_false, Option.bind_eq_bind, Option.bind_eq_some_iff] at h
      obtain ⟨d, hd, -⟩ := h
      exact ⟨c, rest, rfl, isDigit_of_digit? hd⟩

/-- A base is written as a zero and, unless it is the old octal form, a letter. -/
theorem splitBase_cases (body : List Char) :
    splitBase body = (10, false, body) ∨
      ∃ c cs digits, body = '0' :: c :: cs ∧ (splitBase body).2.2 = digits ∧
        (digits = c :: cs ∨ digits = cs ∧ c.isAlphanum = true) := by
  unfold splitBase
  split
  · next c cs =>
    refine .inr ⟨c, cs, _, rfl, rfl, ?_⟩
    split
    · next h => exact .inr ⟨rfl, by rcases h with rfl | rfl <;> rfl⟩
    · split
      · next h => exact .inr ⟨rfl, by rcases h with rfl | rfl <;> rfl⟩
      · split
        · next h => exact .inr ⟨rfl, by rcases h with rfl | rfl <;> rfl⟩
        · exact .inl rfl
  · exact .inl rfl

theorem numeric_of_magnitude? {body : List Char} {n : Nat} (h : magnitude? body = some n) :
    Numeric body := by
  simp only [magnitude?] at h
  split at h
  · cases h
  · cases h
  · next ds _ hds =>
    have hchars := isNumberChar_of_digits? hds
    rcases splitBase_cases body with hbase | ⟨c, cs, _, rfl, rfl, hdigits⟩
    · rw [hbase] at hds hchars
      obtain ⟨c, rest, rfl, hc⟩ := head_of_digits? hds
      exact ⟨⟨c, rest, rfl, startsNumber_of_isDigit hc⟩, hchars⟩
    · refine ⟨⟨'0', _, rfl, rfl⟩, List.forall_mem_cons.mpr ⟨rfl, ?_⟩⟩
      rcases hdigits with heq | ⟨heq, hc⟩
      · exact heq ▸ hchars
      · exact List.forall_mem_cons.mpr ⟨isNumberChar_of_isAlphanum hc, heq ▸ hchars⟩

theorem numeric_of_value? {text : List Char} {v : Int} (h : value? text = some v) :
    Numeric text := by
  simp only [value?, Option.map_eq_some_iff, Option.bind_eq_bind, Option.bind_eq_some_iff] at h
  obtain ⟨_, ⟨n, hn, -⟩, -⟩ := h
  exact .of_splitSign (numeric_of_magnitude? hn)

theorem numeric_of_ofChars {text : List Char} {v : Int64} (h : ofChars text = .ok v) :
    Numeric text := by
  unfold ofChars at h
  split at h
  · cases h
  · next hv => exact numeric_of_value? hv

end Integer

/-! ### Floats -/

namespace Numeral

theorem append_splitDigits (cs : List Char) :
    ∃ part, cs = part ++ (splitDigits cs).2 ∧ (∀ c ∈ part, c.isDigit = true) ∧
      (part = [] → (splitDigits cs).1 = []) :=
  ⟨cs.takeWhile Char.isDigit, List.takeWhile_append_dropWhile.symm,
    fun _ hc => List.mem_takeWhile_imp hc, fun hnil => by simp [splitDigits, hnil]⟩

theorem isNumberChar_of_exponent? {cs : List Char} {e : Int} (h : exponent? cs = some e) :
    ∀ c ∈ cs, isNumberChar c = true := by
  cases cs with
  | nil => simp
  | cons c cs =>
    simp only [exponent?, Option.ite_none_right_eq_some] at h
    obtain ⟨⟨hc, -, hrest⟩, -⟩ := h
    refine List.forall_mem_cons.mpr ⟨?_, forall_mem_of_splitSign rfl rfl ?_⟩
    · rcases hc with rfl | rfl <;> rfl
    · obtain ⟨part, heq, hpart, -⟩ := append_splitDigits (splitSign cs).2
      rw [heq, hrest, List.append_nil]
      exact fun a ha => isNumberChar_of_isDigit (hpart a ha)

theorem numeric_of_ofChars? {text : List Char} {n : Numeral} (h : ofChars? text = some n) :
    Numeric text := by
  apply Numeric.of_splitSign
  obtain ⟨whole, heq, hwhole, hnil⟩ := append_splitDigits (splitSign text).2
  have hdigits : ∀ c ∈ whole, isNumberChar c = true :=
    fun c hc => isNumberChar_of_isDigit (hwhole c hc)
  simp only [ofChars?] at h
  split at h
  · next cs hcs =>
    -- a point, and digits on at least one side of it
    simp only [Option.ite_none_left_eq_some, Option.map_eq_some_iff] at h
    obtain ⟨-, e, he, -⟩ := h
    obtain ⟨fraction, hfeq, hfraction, -⟩ := append_splitDigits cs
    rw [heq, hcs]
    constructor
    · cases whole with
      | nil => exact ⟨'.', cs, rfl, rfl⟩
      | cons c rest => exact ⟨c, _, rfl, startsNumber_of_isDigit (hwhole c List.mem_cons_self)⟩
    · rw [hfeq]
      simp only [List.forall_mem_append, List.forall_mem_cons]
      exact ⟨hdigits, rfl, fun c hc => isNumberChar_of_isDigit (hfraction c hc),
        isNumberChar_of_exponent? he⟩
  · simp only [Option.ite_none_left_eq_some, Option.map_eq_some_iff] at h
    obtain ⟨hne, e, he, -⟩ := h
    rw [heq]
    constructor
    · cases whole with
      | nil => exact absurd (by simp [hnil rfl]) hne
      | cons c rest => exact ⟨c, _, rfl, startsNumber_of_isDigit (hwhole c List.mem_cons_self)⟩
    · exact List.forall_mem_append.mpr ⟨hdigits, isNumberChar_of_exponent? he⟩

end Numeral

/-! ### Complex numbers -/

namespace Number

theorem numeric_of_float? {text : List Char} {x : Float} (h : float? text = some x) :
    Numeric text := by
  simp only [float?, Option.filter_eq_some_iff, Option.map_eq_some_iff] at h
  obtain ⟨⟨n, hn, -⟩, -⟩ := h
  exact Numeral.numeric_of_ofChars? hn

theorem numeric_of_real? {text : List Char} {x : Float} (h : real? text = some x) :
    Numeric text := by
  unfold real? at h
  split at h
  · next hv => exact Integer.numeric_of_ofChars hv
  · exact numeric_of_float? h

theorem numeric_of_imaginary? {text : List Char} {x : Float} (h : imaginary? text = some x) :
    Numeric text := by
  unfold imaginary? at h
  split at h
  · exact ⟨⟨'+', [], rfl, rfl⟩, by simp; decide⟩
  · exact ⟨⟨'-', [], rfl, rfl⟩, by simp; decide⟩
  · exact numeric_of_real? h

theorem append_of_splitLastSign {before : Char} {text front back : List Char}
    (h : splitLastSign before text = some (front, back)) : front ++ back = text := by
  induction text generalizing before front with
  | nil => cases h
  | cons c cs ih =>
    simp only [splitLastSign] at h
    split at h
    · next hcs =>
      cases h
      rw [List.cons_append, ih hcs]
    · split at h <;> cases h
      rfl

theorem append_of_splitParts {text front back : List Char}
    (h : splitParts text = some (front, back)) : front ++ back = text := by
  cases text with
  | nil => cases h
  | cons c cs =>
    obtain ⟨⟨f, b⟩, hs, heq⟩ := Option.map_eq_some_iff.mp h
    cases heq
    rw [List.cons_append, append_of_splitLastSign hs]

theorem numeric_of_complexParts {text : List Char} {re im : Float}
    (h : complexParts text = .ok (re, im)) : Numeric text := by
  simp only [complexParts] at h
  split at h
  · cases h
  · next hlast =>
    split at h
    · cases h
    · next front back hparts =>
      split at h <;> cases h
      next hre him =>
      obtain ⟨⟨c, cs, rfl, hc⟩, hfront⟩ := numeric_of_real? hre
      have hback := (numeric_of_imaginary? him).chars
      have heq : text = (c :: cs ++ back) ++ ['i'] := by
        rw [append_of_splitParts hparts]
        exact (List.dropLast_append_getLast? _ (by simpa using hlast)).symm
      rw [heq]
      refine ⟨⟨c, _, rfl, hc⟩, ?_⟩
      simp only [List.forall_mem_append]
      exact ⟨⟨hfront, hback⟩, by simp; decide⟩

/-- All numeric literals have the shape. -/
theorem numeric_of_ofChars {text : List Char} {n : Number} (h : ofChars text = .ok n) :
    Numeric text := by
  unfold ofChars at h
  split at h
  · next hv => exact Integer.numeric_of_ofChars hv
  · next hx => exact numeric_of_float? hx
  · cases h
  · split at h
    · cases h
    · next hparts => exact numeric_of_complexParts hparts

end Number

end Markers
