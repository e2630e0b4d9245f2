import Markers.Proofs.Literal.Decimal

/-!
# Literals in other bases than ten

A literal in another base than ten is an integer or an error where a letter names the base. In the
old octal form, a zero and more digits, it is an integer as well if its digits are octal and 64 bits
hold the number. The same text is a decimal numeral, though, and what does not read as an octal
integer reads as a decimal float (`classify_nonDecimal`).
-/

namespace Markers

open Integer (BaseLetter Denotes)

/-- A literal, without its sign, that names another base than ten by a letter, or by a zero in front
of digits. -/
inductive Integer.NonDecimal : List Char → Prop
  | based (hb : BaseLetter c base) (hcs : ∀ a ∈ cs, a.isAlphanum = true ∨ a = '_')
    (hlast : cs.getLast? ≠ some 'i') : NonDecimal ('0' :: c :: cs)
  | oldOctal (hne : cs ≠ []) (hcs : ∀ a ∈ cs, a.isDigit = true ∨ a = '_') : NonDecimal ('0' :: cs)

theorem mem_of_mem_splitSign {text : List Char} {c : Char} (h : c ∈ (splitSign text).2) :
    c ∈ text := by
  rcases splitSign_cases text with ⟨s, -, htext⟩ | htext
  · exact htext ▸ List.mem_cons_of_mem _ h
  · exact htext ▸ h

namespace Integer

variable {cs : List Char}

theorem NonDecimal.ne_nil (h : NonDecimal cs) : cs ≠ [] := by
  cases h <;> exact List.cons_ne_nil _ _

/-- No such literal ends like a complex number. -/
theorem NonDecimal.getLast?_ne (h : NonDecimal cs) : cs.getLast? ≠ some 'i' := by
  cases h with
  | @based c base cs hb _ hlast =>
    cases cs with
    | nil => cases hb <;> decide
    | cons a cs =>
      rw [List.getLast?_cons_cons, List.getLast?_cons_cons]
      exact hlast
  | @oldOctal cs hne hcs =>
    intro hi
    have hmem : 'i' ∈ '0' :: cs := List.mem_of_getLast? hi
    rcases List.mem_cons.mp hmem with h | h
    · cases h
    · rcases hcs 'i' h with h | h <;> cases h

/-- Such a literal that is a decimal numeral is digits throughout: a numeral has neither a letter
that names a base nor an underscore. -/
theorem NonDecimal.isDigit (h : NonDecimal cs)
    (hchars : ∀ a ∈ cs, a.isDigit = true ∨ a ∈ Numeral.marks) : ∀ a ∈ cs, a.isDigit = true := by
  cases h with
  | @based c base cs hb =>
    have hc := hchars c (List.mem_cons_of_mem _ List.mem_cons_self)
    cases hb <;> exact absurd hc (by decide)
  | @oldOctal cs _ hcs =>
    refine List.forall_mem_cons.mpr ⟨rfl, fun a ha => ?_⟩
    rcases hcs a ha with hdigit | rfl
    · exact hdigit
    · exact absurd (hchars '_' (List.mem_cons_of_mem _ ha)) (by decide)

end Integer

namespace Number

open Integer (NonDecimal)

variable {text : List Char} {x re im : Float}

/-- What does not end in an `i` is no complex number. -/
theorem complexParts_of_getLast? (h : text.getLast? ≠ some 'i') :
    ∃ e, complexParts text = .error e := by
  simp only [complexParts, if_pos h]
  exact ⟨_, rfl⟩

theorem complexParts_of_nonDecimal (h : NonDecimal (splitSign text).2) :
    ∃ e, complexParts text = .error e := by
  apply complexParts_of_getLast?
  rcases splitSign_cases text with ⟨s, -, htext⟩ | htext
  · rw [htext, List.getLast?_cons_of_ne_nil h.ne_nil]
    exact h.getLast?_ne
  · rw [htext]
    exact h.getLast?_ne

/-- A literal in another base than ten is a decimal float only by its digits. -/
theorem float?_eq_some_iff (h : NonDecimal (splitSign text).2) :
    float? text = some x ↔ ∃ n, Spells 10 (splitSign text).2 n ∧
      x = Numeral.toFloat ⟨(splitSign text).1, n, 0⟩ ∧ x.isFinite = true := by
  simp only [float?, Option.filter_eq_some_iff, Option.map_eq_some_iff]
  constructor
  · rintro ⟨⟨y, hy, rfl⟩, hfinite⟩
    have hdigits := h.isDigit fun a ha => Numeral.chars_of_ofChars? hy a (mem_of_mem_splitSign ha)
    obtain ⟨n, hn⟩ := Numeral.exists_spells hdigits
    rw [Numeral.ofChars?_of_spells h.ne_nil hn] at hy
    cases hy
    exact ⟨n, hn, rfl, hfinite⟩
  · rintro ⟨n, hn, rfl, hfinite⟩
    exact ⟨⟨_, Numeral.ofChars?_of_spells h.ne_nil hn, rfl⟩, hfinite⟩

/-- A literal in another base than ten is the integer that it denotes, if 64 bits hold that, and it
is never complex. It is a float in one case: it denotes no such integer and is digits only, which
read in base ten give a finite float. -/
theorem classify_nonDecimal (text : String) (h : NonDecimal (splitSign text.toList).2) :
    (∀ v, classify text = .ok (.int v) ↔ Denotes text.toList v.toInt) ∧
      (∀ re im, classify text ≠ .ok (.complex re im)) ∧
      ∀ x, classify text = .ok (.float x) ↔
        (∀ v : Int64, ¬Denotes text.toList v.toInt) ∧
        ∃ n, Spells 10 (splitSign text.toList).2 n ∧
          x = Numeral.toFloat ⟨(splitSign text.toList).1, n, 0⟩ ∧ x.isFinite = true := by
  obtain ⟨e, hparts⟩ := complexParts_of_nonDecimal h
  refine ⟨fun v => ?_, fun re im hcomplex => ?_, fun x => ?_⟩
  · rw [classify_eq_int, Integer.ofChars_eq_ok_iff]
  · unfold classify ofChars at hcomplex
    split at hcomplex
    · cases hcomplex
    · cases hcomplex
    · cases hcomplex
    · rw [hparts] at hcomplex
      cases hcomplex
  · simp only [← float?_eq_some_iff h, ← Integer.ofChars_eq_ok_iff]
    unfold classify ofChars
    constructor
    · intro hfloat
      split at hfloat
      · cases hfloat
      · next hint hx =>
        cases hfloat
        refine ⟨fun v hv => ?_, hx⟩
        rw [hint] at hv
        cases hv
      · cases hfloat
      · rw [hparts] at hfloat
        cases hfloat
    · rintro ⟨hint, hx⟩
      rw [hx]
      cases hofChars : Integer.ofChars text.toList with
      | ok v => exact absurd hofChars (hint v)
      | error e => rfl

theorem classify_nonDecimal_least :
    NonDecimal (splitSign "-0x8000000000000000".toList).2 ∧
      classify "-0x8000000000000000" = .ok (.int Int64.minValue) := by
  have h : NonDecimal ('0' :: 'x' :: "8000000000000000".toList) :=
    .based .hex (by simp) (by decide)
  refine ⟨h, ((classify_nonDecimal "-0x8000000000000000" h).1 _).mpr ?_⟩
  exact Integer.ofChars_eq_ok_iff.mp rfl

/-- Digits behind a zero that are no octal integer of 64 bits read in base ten. A digit of the first
text is not octal, and the second text denotes the first number that 64 bits do not hold. -/
theorem classify_oldOctal_in_base_ten :
    (NonDecimal "09".toList ∧ classify "09" = .ok (.float 9)) ∧
      NonDecimal "01000000000000000000000".toList ∧
      Denotes "01000000000000000000000".toList (2 ^ 63) ∧
      classify "01000000000000000000000" = .ok (.float 1000000000000000000000) := by
  have hnine : NonDecimal ['0', '9'] := .oldOctal (by decide) (by simp)
  have hlarge : NonDecimal ('0' :: "1000000000000000000000".toList) :=
    .oldOctal (by decide) (by simp)
  refine ⟨⟨hnine, rfl⟩, hlarge, ?_, rfl⟩
  exact Integer.value?_eq_some_iff.mp rfl

end Number

end Markers
