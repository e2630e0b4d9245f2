import Markers.Proofs.Literal.Spelling

/-!
# The shape of decimal numerals

Behind its sign a decimal numeral is digits and points, and an exponent if it has one. Digits alone
are a numeral of the number that they spell.
-/

namespace Markers.Numeral

variable {text cs : List Char} {n : Nat}

/-- An exponent with its mark and, perhaps, a sign. -/
inductive Exponent : List Char → Prop
  | none : Exponent []
  | unsigned (hc : c = 'e' ∨ c = 'E') (hds : ∀ d ∈ ds, d.isDigit = true) : Exponent (c :: ds)
  | signed (hc : c = 'e' ∨ c = 'E') (hs : s = '-' ∨ s = '+') (hds : ∀ d ∈ ds, d.isDigit = true) :
    Exponent (c :: s :: ds)

theorem exponent_of_exponent? {e : Int} (h : exponent? cs = some e) : Exponent cs := by
  cases cs with
  | nil => exact .none
  | cons c cs =>
    simp only [exponent?, Option.ite_none_right_eq_some] at h
    obtain ⟨⟨hc, -, hrest⟩, -⟩ := h
    obtain ⟨ds, heq, hds, -⟩ := append_splitDigits (splitSign cs).2
    rw [hrest, List.append_nil] at heq
    rcases splitSign_cases cs with ⟨s, hs, hcs⟩ | hcs
    · rw [hcs, heq]
      exact .signed hc hs hds
    · rw [hcs, heq]
      exact .unsigned hc hds

/-- A numeral behind its sign. -/
theorem parts_of_ofChars? {x : Numeral} (h : ofChars? text = some x) :
    ∃ mantissa rest, (splitSign text).2 = mantissa ++ rest ∧
      (∀ c ∈ mantissa, c.isDigit = true ∨ c = '.') ∧ Exponent rest := by
  obtain ⟨whole, heq, hwhole, -⟩ := append_splitDigits (splitSign text).2
  simp only [ofChars?] at h
  split at h
  · next cs hcs =>
    simp only [Option.ite_none_left_eq_some, Option.map_eq_some_iff] at h
    obtain ⟨-, e, he, -⟩ := h
    obtain ⟨fraction, hfeq, hfraction, -⟩ := append_splitDigits cs
    refine ⟨whole ++ '.' :: fraction, _, ?_, ?_, exponent_of_exponent? he⟩
    · rw [heq, hcs, List.append_assoc, List.cons_append, ← hfeq]
    · simp only [List.forall_mem_append, List.forall_mem_cons]
      exact ⟨fun c hc => .inl (hwhole c hc), .inr trivial, fun c hc => .inl (hfraction c hc)⟩
  · simp only [Option.ite_none_left_eq_some, Option.map_eq_some_iff] at h
    obtain ⟨-, e, he, -⟩ := h
    exact ⟨whole, _, heq, fun c hc => .inl (hwhole c hc), exponent_of_exponent? he⟩

/-- The characters of numerals besides digits. -/
def marks : List Char := ['-', '+', '.', 'e', 'E']

theorem Exponent.chars (h : Exponent cs) : ∀ c ∈ cs, c.isDigit = true ∨ c ∈ marks := by
  cases h with
  | none => exact fun _ hc => absurd hc List.not_mem_nil
  | unsigned hc hds =>
    refine List.forall_mem_cons.mpr ⟨.inr ?_, fun d hd => .inl (hds d hd)⟩
    rcases hc with rfl | rfl <;> decide
  | signed hc hs hds =>
    refine List.forall_mem_cons.mpr ⟨.inr ?_, List.forall_mem_cons.mpr ⟨.inr ?_, ?_⟩⟩
    · rcases hc with rfl | rfl <;> decide
    · rcases hs with rfl | rfl <;> decide
    · exact fun d hd => .inl (hds d hd)

theorem chars_of_ofChars? {x : Numeral} (h : ofChars? text = some x) :
    ∀ c ∈ text, c.isDigit = true ∨ c ∈ marks := by
  obtain ⟨mantissa, rest, heq, hmantissa, hrest⟩ := parts_of_ofChars? h
  have hbody : ∀ c ∈ (splitSign text).2, c.isDigit = true ∨ c ∈ marks := by
    rw [heq]
    refine List.forall_mem_append.mpr ⟨fun c hc => ?_, hrest.chars⟩
    rcases hmantissa c hc with hc | rfl
    · exact .inl hc
    · exact .inr (by decide)
  exact forall_mem_of_splitSign (.inr (by decide)) (.inr (by decide)) hbody

/-! ### Digits alone -/

theorem isDigit_of_spells (h : Spells 10 cs n) : ∀ c ∈ cs, c.isDigit = true := by
  obtain ⟨ds, hds, -⟩ := h
  induction hds with
  | nil => exact fun _ hc => absurd hc List.not_mem_nil
  | cons hd _ ih =>
    have hdigit := (Integer.digit?_eq_some_iff (by decide)).mpr hd
    exact List.forall_mem_cons.mpr ⟨isDigit_of_digit? hdigit, ih⟩

theorem exists_digit?_of_isDigit {c : Char} (h : c.isDigit = true) : ∃ d, digit? 10 c = some d := by
  have hle : '0' ≤ c ∧ c ≤ '9' := by
    simpa [Char.isDigit, Char.le_def] using h
  have hmax : c.toNat ≤ '9'.toNat := UInt32.le_iff_toNat_le.mp hle.2
  refine ⟨c.toNat - '0'.toNat, ?_⟩
  rw [digit?, if_pos hle, Option.filter_some, if_pos]
  simp at hmax ⊢
  omega

/-- Decimal digits spell a number. -/
theorem exists_spells (h : ∀ c ∈ cs, c.isDigit = true) : ∃ n, Spells 10 cs n := by
  induction cs with
  | nil => exact ⟨_, [], .nil, rfl⟩
  | cons c cs ih =>
    obtain ⟨hc, hcs⟩ := List.forall_mem_cons.mp h
    obtain ⟨_, ds, hds, -⟩ := ih hcs
    obtain ⟨d, hd⟩ := exists_digit?_of_isDigit hc
    exact ⟨_, d :: ds, .cons ((Integer.digit?_eq_some_iff (by decide)).mp hd) hds, rfl⟩

theorem splitDigits_of_spells (h : Spells 10 cs n) :
    ∃ ds, splitDigits cs = (ds, []) ∧ ofDigits 10 ds = n ∧ ds.length = cs.length := by
  have hdigit := isDigit_of_spells h
  obtain ⟨ds, hds, hn⟩ := h
  have hvalues : cs.filterMap (digit? 10) = ds := by
    clear hdigit hn
    induction hds with
    | nil => rfl
    | cons hd _ ih =>
      rw [List.filterMap_cons_some ((Integer.digit?_eq_some_iff (by decide)).mpr hd), ih]
  refine ⟨ds, ?_, by rw [Integer.ofDigits_eq, hn], hds.length_eq.symm⟩
  rw [splitDigits, List.takeWhile_eq_self_iff.mpr hdigit, List.dropWhile_eq_nil_iff.mpr hdigit,
    hvalues]

/-- Digits behind a sign, if there is one, are a numeral without a point or an exponent. -/
theorem ofChars?_of_spells (hne : (splitSign text).2 ≠ []) (h : Spells 10 (splitSign text).2 n) :
    ofChars? text = some ⟨(splitSign text).1, n, 0⟩ := by
  obtain ⟨ds, hsplit, hn, hlen⟩ := splitDigits_of_spells h
  have hds : ds ≠ [] := by
    rintro rfl
    exact hne (List.length_eq_zero_iff.mp hlen.symm)
  simp only [ofChars?, hsplit, List.append_nil, if_neg hds, exponent?, hn]
  rfl

end Markers.Numeral
