import Markers.Proofs.Literal.Decimal

/-!
# The parts of complex literals

A complex literal is divided at its last sign, but a sign behind an `e` is taken for that of an
exponent. The parts of a literal hold no other signs than their own and those of exponents, so two
parts are divided where they were joined (`classify_complex`). The exception is a hexadecimal real
part whose last digit is an `e`: the sign behind it is not seen, and the literal is refused.
-/

namespace Markers.Number

open Integer (Digits Unsigned Denotes)

/-- An imaginary part without its unit. -/
inductive Imaginary : List Char → Float → Prop
  | plus : Imaginary ['+'] 1
  | minus : Imaginary ['-'] (-1)
  | signed (hc : c = '+' ∨ c = '-') (h : real? (c :: cs) = some x) : Imaginary (c :: cs) x

/-- No sign divides the text: each of them stands behind an exponent mark. -/
def Undivided (text : List Char) : Prop := ∀ before, splitLastSign before text = none

variable {before c : Char} {cs s t text : List Char} {x re im : Float}

/-! ### Splitting -/

theorem splitLastSign_append (before : Char) (s t : List Char) :
    splitLastSign before (s ++ t) =
      match splitLastSign (s.getLastD before) t with
      | some (front, back) => some (s ++ front, back)
      | none => (splitLastSign before s).map fun (front, back) => (front, back ++ t) := by
  induction s generalizing before with
  | nil =>
    rw [List.nil_append, List.getLastD_nil]
    cases splitLastSign before t <;> rfl
  | cons c s ih =>
    rw [List.cons_append, splitLastSign, ih, List.getLastD_cons, splitLastSign]
    cases splitLastSign (s.getLastD c) t with
    | some p => rfl
    | none =>
      cases splitLastSign c s with
      | some p => rfl
      | none =>
        simp only [Option.map_none]
        split <;> rfl

theorem Undivided.append (hs : Undivided s) (ht : Undivided t) : Undivided (s ++ t) := by
  intro before
  rw [splitLastSign_append, ht]
  simp only [hs before, Option.map_none]

theorem Undivided.tail (h : Undivided (c :: cs)) : splitLastSign c cs = none := by
  have hcons := h c
  rw [splitLastSign] at hcons
  split at hcons
  · cases hcons
  · assumption

/-- A character that is no sign goes in front of what is undivided behind it. -/
theorem splitLastSign_cons (hc : ¬((c = '+' ∨ c = '-') ∧ before ≠ 'e' ∧ before ≠ 'E'))
    (h : splitLastSign c cs = none) : splitLastSign before (c :: cs) = none := by
  rw [splitLastSign, h]
  exact if_neg hc

theorem undivided_of_no_sign (h : ∀ c ∈ text, c ≠ '+' ∧ c ≠ '-') : Undivided text := by
  induction text with
  | nil => exact fun _ => rfl
  | cons c text ih =>
    obtain ⟨⟨hplus, hminus⟩, htext⟩ := List.forall_mem_cons.mp h
    exact fun _ => splitLastSign_cons (fun hc => hc.1.elim hplus hminus) (ih htext c)

theorem undivided_of_isDigit (h : ∀ c ∈ text, c.isDigit = true) : Undivided text :=
  undivided_of_no_sign fun c hc => ⟨ne_of_class (h c hc) rfl, ne_of_class (h c hc) rfl⟩

/-! ### What the parts hold -/

theorem undivided_exponent (h : Numeral.Exponent cs) : Undivided cs := by
  intro before
  cases h with
  | none => rfl
  | unsigned hc hds =>
    refine splitLastSign_cons ?_ (undivided_of_isDigit hds _)
    rcases hc with rfl | rfl <;> simp
  | signed hc hs hds =>
    refine splitLastSign_cons ?_ (splitLastSign_cons ?_ (undivided_of_isDigit hds _))
    · rcases hc with rfl | rfl <;> simp
    · rcases hc with rfl | rfl <;> simp

/-- The characters that an integer has none of behind its sign. -/
def IsForeign (c : Char) : Prop := c = 'i' ∨ c = '+' ∨ c = '-'

end Markers.Number

namespace Markers.Integer

open Number (IsForeign)

variable {base n : Nat} {c : Char} {cs : List Char} {ds : List Nat}

theorem not_isForeign_of_digit (hbase : base ≤ 16) (h : IsDigit base c d) : ¬IsForeign c := by
  have hdigit := (digit?_eq_some_iff hbase).mpr h
  have halphanum := isAlphanum_of_digit? hdigit
  rintro (rfl | rfl | rfl)
  · simp [digit?] at hdigit
  · cases halphanum
  · cases halphanum

theorem Digits.not_isForeign (hbase : base ≤ 16) (h : Digits base cs ds) :
    ∀ c ∈ cs, ¬IsForeign c := by
  have hunderscore : ¬IsForeign '_' := by rintro (h | h | h) <;> cases h
  induction h with
  | nil => exact fun _ hc => absurd hc List.not_mem_nil
  | digit hc _ ih => exact List.forall_mem_cons.mpr ⟨not_isForeign_of_digit hbase hc, ih⟩
  | separated hc _ ih =>
    refine List.forall_mem_cons.mpr ⟨hunderscore, List.forall_mem_cons.mpr ⟨?_, ih⟩⟩
    exact not_isForeign_of_digit hbase hc

theorem Unsigned.not_isForeign (h : Unsigned cs n) : ∀ c ∈ cs, ¬IsForeign c := by
  have hzero : ¬IsForeign '0' := by rintro (h | h | h) <;> cases h
  cases h with
  | zero => exact List.forall_mem_singleton.mpr hzero
  | decimal _ hc H =>
    refine List.forall_mem_cons.mpr ⟨?_, H.not_isForeign (by decide)⟩
    exact not_isForeign_of_digit (by decide) hc
  | based hb _ H =>
    refine List.forall_mem_cons.mpr ⟨hzero, List.forall_mem_cons.mpr ⟨?_, ?_⟩⟩
    · cases hb <;> (rintro (h | h | h) <;> cases h)
    · exact H.not_isForeign hb.base_le
  | oldOctal _ H => exact List.forall_mem_cons.mpr ⟨hzero, H.not_isForeign (by decide)⟩

/-- Behind its sign an integer has no characters that are foreign to it. -/
theorem not_isForeign_of_value? {v : Int} (h : value? cs = some v) :
    ∀ c ∈ (splitSign cs).2, ¬IsForeign c := by
  obtain ⟨n, hn, -⟩ := value?_eq_some.mp h
  exact (unsigned_of_magnitude? hn).not_isForeign

end Markers.Integer

namespace Markers.Number

variable {cs r s text : List Char} {x re im : Float}

theorem unit_not_mem_of_value? {v : Int} (h : Integer.value? text = some v) : 'i' ∉ text := by
  have hbody : ∀ c ∈ (splitSign text).2, c ≠ 'i' :=
    fun c hc heq => Integer.not_isForeign_of_value? h c hc (.inl heq)
  exact fun hi => forall_mem_of_splitSign (by decide) (by decide) hbody 'i' hi rfl

theorem unit_not_mem_of_numeral {n : Numeral} (h : Numeral.ofChars? text = some n) :
    'i' ∉ text := by
  intro hi
  rcases Numeral.chars_of_ofChars? h 'i' hi with hdigit | hmark
  · cases hdigit
  · exact absurd hmark (by decide)

/-- What ends in an `i` is no integer. -/
theorem ofChars_unit (text : List Char) : Integer.ofChars (text ++ ['i']) = .error .malformed := by
  have hmem : 'i' ∈ text ++ ['i'] := List.mem_append_right _ List.mem_cons_self
  unfold Integer.ofChars
  split
  · rfl
  · next hv => exact absurd hmem (unit_not_mem_of_value? hv)

theorem float?_unit (text : List Char) : float? (text ++ ['i']) = none := by
  have hmem : 'i' ∈ text ++ ['i'] := List.mem_append_right _ List.mem_cons_self
  cases hn : Numeral.ofChars? (text ++ ['i']) with
  | none => rw [float?, hn]; rfl
  | some n => exact absurd hmem (unit_not_mem_of_numeral hn)

/-- Behind the sign of a real number no sign divides it. -/
theorem undivided_of_real? (h : real? text = some x) : Undivided (splitSign text).2 := by
  unfold real? at h
  split at h
  · next v hv =>
    have hvalue := Integer.value?_eq_some_iff.mpr (Integer.ofChars_eq_ok_iff.mp hv)
    refine undivided_of_no_sign fun c hc => ?_
    have hforeign := Integer.not_isForeign_of_value? hvalue c hc
    exact ⟨fun h => hforeign (.inr (.inl h)), fun h => hforeign (.inr (.inr h))⟩
  · simp only [float?, Option.filter_eq_some_iff, Option.map_eq_some_iff] at h
    obtain ⟨⟨n, hn, -⟩, -⟩ := h
    obtain ⟨mantissa, rest, heq, hmantissa, hrest⟩ := Numeral.parts_of_ofChars? hn
    rw [heq]
    refine Undivided.append (undivided_of_no_sign fun c hc => ?_) (undivided_exponent hrest)
    rcases hmantissa c hc with hdigit | rfl
    · exact ⟨ne_of_class hdigit rfl, ne_of_class hdigit rfl⟩
    · decide

/-- The first character of a real number may be a sign; behind it no sign divides the number. -/
theorem splitLastSign_of_real? (h : real? (c :: cs) = some x) : splitLastSign c cs = none := by
  have hbody := undivided_of_real? h
  rcases splitSign_cases (c :: cs) with ⟨s, -, htext⟩ | htext
  · rw [← (List.cons.inj htext).2] at hbody
    exact hbody c
  · rw [← htext] at hbody
    exact hbody.tail

theorem Imaginary.imaginary?_eq (h : Imaginary s im) : imaginary? s = some im := by
  cases h with
  | plus => rfl
  | minus => rfl
  | @signed c x cs hc h =>
    unfold imaginary?
    split
    · next heq => rw [heq] at h; cases h
    · next heq => rw [heq] at h; cases h
    · exact h

theorem Imaginary.head (h : Imaginary s im) :
    ∃ c cs, s = c :: cs ∧ (c = '+' ∨ c = '-') ∧ splitLastSign c cs = none := by
  cases h with
  | plus => exact ⟨_, _, rfl, .inl rfl, rfl⟩
  | minus => exact ⟨_, _, rfl, .inr rfl, rfl⟩
  | signed hc h => exact ⟨_, _, rfl, hc, splitLastSign_of_real? h⟩

/-- Two parts are divided where they were joined, unless the first ends in an exponent mark. -/
theorem splitParts_append (hr : real? r = some re) (hs : Imaginary s im) :
    splitParts (r ++ s) =
      if r.getLast? = some 'e' ∨ r.getLast? = some 'E' then none else some (r, s) := by
  obtain ⟨c, cs, rfl, -⟩ := (numeric_of_real? hr).head
  obtain ⟨d, ds, rfl, hd, hback⟩ := hs.head
  have hlast : (c :: cs).getLast? = some (cs.getLastD c) := by
    rw [List.getLast?_cons, List.getLastD_eq_getLast?]
  rw [List.cons_append, splitParts, splitLastSign_append, splitLastSign, hback, hlast]
  simp only [Option.some.injEq]
  by_cases hmark : cs.getLastD c = 'e' ∨ cs.getLastD c = 'E'
  · rw [if_pos hmark, if_neg (by tauto)]
    simp only [splitLastSign_of_real? hr, Option.map_none]
  · rw [if_neg hmark, if_pos (by tauto)]
    simp only [List.append_nil, Option.map_some]

theorem complexParts_append (hr : real? r = some re) (hs : Imaginary s im) :
    complexParts (r ++ s ++ ['i']) =
      if r.getLast? = some 'e' ∨ r.getLast? = some 'E' then
        .error (.realMissing (String.ofList (r ++ s ++ ['i'])))
      else .ok (re, im) := by
  simp only [complexParts, List.getLast?_concat, List.dropLast_concat, splitParts_append hr hs]
  rw [if_neg (not_not_intro rfl)]
  split
  · next hsplit =>
    split at hsplit
    · next hmark => rw [if_pos hmark]
    · cases hsplit
  · next hsplit =>
    split at hsplit
    · cases hsplit
    · next hmark =>
      cases hsplit
      simp only [hr, hs.imaginary?_eq, if_neg hmark]

/-- A real part, a signed imaginary part and an `i` are a complex number of just these parts, and a
float if the imaginary part is zero; but a sign behind an `e` is no sign between two parts. -/
theorem classify_complex (r s : String) (re im : Float) (hr : real? r.toList = some re)
    (hs : Imaginary s.toList im) :
    classify (r ++ s ++ "i") =
      if r.toList.getLast? = some 'e' ∨ r.toList.getLast? = some 'E' then
        .error (.realMissing (r ++ s ++ "i"))
      else .ok (if im == 0 then .float re else .complex re im) := by
  have htext : (r ++ s ++ "i").toList = r.toList ++ s.toList ++ ['i'] := by
    rw [String.toList_append, String.toList_append]
    rfl
  have hshown : String.ofList (r.toList ++ s.toList ++ ['i']) = r ++ s ++ "i" := by
    rw [← htext, String.ofList_toList]
  have hparts := complexParts_append hr hs
  simp only [classify, ofChars, htext, ofChars_unit, float?_unit, hparts, hshown]
  by_cases hmark : r.toList.getLast? = some 'e' ∨ r.toList.getLast? = some 'E'
  · rw [if_pos hmark, if_pos hmark]
  · rw [if_neg hmark, if_neg hmark]

theorem classify_complex_hexadecimal :
    real? "-0x1F".toList = some (-31) ∧ Imaginary "+2.5e-3".toList 2.5e-3 ∧
      classify "-0x1F+2.5e-3i" = .ok (.complex (-31) 2.5e-3) := by
  have hre : real? "-0x1F".toList = some (-31) := rfl
  have him : Imaginary "+2.5e-3".toList 2.5e-3 := .signed (.inl rfl) rfl
  have h := classify_complex "-0x1F" "+2.5e-3" _ _ hre him
  rw [if_neg (by decide), if_neg (by decide +kernel)] at h
  exact ⟨hre, him, h⟩

/-- The two parts are read each for itself, but not where they are joined. -/
theorem classify_hexadecimal_e :
    real? "0xe".toList = some 14 ∧ Imaginary "+1".toList 1 ∧
      classify "0xe+1i" = .error (.realMissing "0xe+1i") :=
  ⟨rfl, .signed (.inl rfl) rfl, rfl⟩

end Markers.Number
