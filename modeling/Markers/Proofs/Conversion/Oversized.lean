import Markers.Proofs.Conversion.Integer
import Markers.Proofs.Decimal.Rounding
import Markers.Proofs.Grammar.Completeness
import Markers.Proofs.Literal.Decimal

/-!
# Integers beyond 64 bits

A decimal integer that 64 signed bits do not hold is read as a float, so an integer type is offered
the rounded number. Whether that overflows the type is what the integer itself would have decided,
except for the thousand and twenty-four integers next to each bound of 64 bits that are rounded onto
the bound (`convertTo_oversized`).
-/

namespace Markers

/-- Decimal digits behind an optional sign, without a zero in front, and the number they denote. -/
def IsDecimal (text : List Char) (n : Int) : Prop :=
  (splitSign text).2.head? ≠ some '0' ∧
    ∃ k, Spells 10 (splitSign text).2 k ∧ n = if (splitSign text).1 then -(k : Int) else k

/-! ### Reading -/

section
variable {base k : Nat} {cs text name before : List Char} {ds : List Nat} {n : Int}

theorem Integer.digits_of_forall₂ (h : List.Forall₂ (IsDigit base) cs ds) : Digits base cs ds := by
  induction h with
  | nil => exact .nil
  | cons hc _ ih => exact .digit hc ih

theorem Integer.unsigned_of_spells (hne : cs ≠ []) (hzero : cs.head? ≠ some '0')
    (h : Spells 10 cs k) : Unsigned cs k := by
  obtain ⟨ds, hds, rfl⟩ := h
  cases hds with
  | nil => exact absurd rfl hne
  | cons hc hcs =>
    refine .decimal ?_ hc (digits_of_forall₂ hcs)
    rintro rfl
    rcases hc.2 with rfl | rfl <;> exact hzero rfl

namespace IsDecimal

/-- Beyond 64 bits the sign and the digits can be told from the number. -/
theorem spells (h : IsDecimal text n) (hn : n < -2 ^ 63 ∨ 2 ^ 63 ≤ n) :
    (splitSign text).1 = decide (n < 0) ∧ Spells 10 (splitSign text).2 n.natAbs := by
  obtain ⟨-, k, hk, rfl⟩ := h
  cases hsign : (splitSign text).1 with
  | false =>
    refine ⟨?_, hk⟩
    rw [eq_comm, decide_eq_false_iff_not]
    exact Int.not_lt.mpr (Int.natCast_nonneg k)
  | true =>
    simp only [hsign, if_true] at hn ⊢
    rw [Int.natAbs_neg, Int.natAbs_natCast]
    exact ⟨(decide_eq_true (by omega)).symm, hk⟩

theorem ne_nil (h : IsDecimal text n) (hn : n < -2 ^ 63 ∨ 2 ^ 63 ≤ n) :
    (splitSign text).2 ≠ [] := by
  intro hnil
  obtain ⟨ds, hds, hk⟩ := (h.spells hn).2
  rw [hnil] at hds
  cases hds
  have hzero : n.natAbs = 0 := hk
  omega

theorem ne_nil_text (h : IsDecimal text n) (hn : n < -2 ^ 63 ∨ 2 ^ 63 ≤ n) : text ≠ [] := by
  rintro rfl
  exact h.ne_nil hn rfl

theorem chars (h : IsDecimal text n) : ∀ c ∈ text, c.isDigit = true ∨ c = '-' ∨ c = '+' := by
  obtain ⟨-, k, hk, -⟩ := h
  exact forall_mem_of_splitSign (.inr (.inl rfl)) (.inr (.inr rfl))
    fun c hc => .inl (Numeral.isDigit_of_spells hk c hc)

theorem not_mem {c : Char} (h : IsDecimal text n) (hc : c.isDigit = false) (hminus : c ≠ '-')
    (hplus : c ≠ '+') : c ∉ text := by
  intro hmem
  rcases h.chars c hmem with hdigit | heq | heq
  · rw [hc] at hdigit
    cases hdigit
  · exact hminus heq
  · exact hplus heq

/-- A decimal integer beyond 64 bits is out of the range of integer literals, and of the readings
that are left it is a float. -/
theorem ofChars_eq_ok {v : Number} (h : IsDecimal text n) (hn : n < -2 ^ 63 ∨ 2 ^ 63 ≤ n)
    (hv : Number.ofChars text = .ok v) :
    v = .float (Numeral.toFloat ⟨decide (n < 0), n.natAbs, 0⟩) ∧
      (Numeral.toFloat ⟨decide (n < 0), n.natAbs, 0⟩).isFinite = true := by
  obtain ⟨hsign, hdigits⟩ := h.spells hn
  have hne := h.ne_nil hn
  have hvalue : Integer.value? text = some n := by
    refine Integer.value?_eq_some.mpr ⟨n.natAbs, ?_, ?_⟩
    · exact Integer.magnitude?_of_unsigned (Integer.unsigned_of_spells hne h.1 hdigits)
    · by_cases hneg : n < 0
      · rw [hsign, decide_eq_true hneg, if_pos rfl]
        omega
      · rw [hsign, decide_eq_false hneg, if_neg Bool.false_ne_true]
        omega
  have hint : Integer.ofChars text = .error .outOfRange := by
    have hbounds : ¬(Int64.minValue.toInt ≤ n ∧ n ≤ Int64.maxValue.toInt) := by
      rintro ⟨hmin, hmax⟩
      have hmin : -2 ^ 63 ≤ n := hmin
      have hmax : n ≤ 2 ^ 63 - 1 := hmax
      omega
    simp only [Integer.ofChars, hvalue, if_neg hbounds]
  have hnumeral := Numeral.ofChars?_of_spells hne hdigits
  rw [hsign] at hnumeral
  simp only [Number.ofChars, hint, Number.float?, hnumeral, Option.map_some] at hv
  cases hfinite : (Numeral.toFloat ⟨decide (n < 0), n.natAbs, 0⟩).isFinite with
  | false =>
    rw [Option.filter_some, hfinite] at hv
    cases hv
  | true =>
    rw [Option.filter_some, hfinite] at hv
    cases hv
    exact ⟨rfl, rfl⟩

end IsDecimal

end

namespace Grammar
variable {c : Char} {cs text name before : List Char} {x : Literal} {i : Identifier} {m : Marker}

/-- A value that starts like a number is one. -/
theorem Value.number (h : Value (c :: cs) x) (hc : Lexeme.startsNumber c = true) :
    ∃ v, Number.ofChars (c :: cs) = .ok v ∧ x = v.toLiteral := by
  generalize htext : c :: cs = text at h
  cases h with
  | scalar h =>
    cases h with
    | bool b => cases b <;> (cases htext; cases hc)
    | string h =>
      obtain ⟨rest, rfl⟩ := Quoted.head_of_ofChars h
      cases htext
      cases hc
    | number h => exact ⟨_, h, rfl⟩
  | raw =>
    cases htext
    cases hc
  | list =>
    cases htext
    cases hc

/-- A marker on the only line has the value that is written behind its name. -/
theorem Block.value (hname : Identifier.ofChars name = .ok i) (hline : '\n' ∉ text)
    (hassign : '=' ∉ text) (H : Block before ('+' :: (name ++ '=' :: text)) [m]) :
    Value text m.value := by
  have hwhole : '\n' ∉ '+' :: (name ++ '=' :: text) := by
    simp [hline, Identifier.not_mem_of_ofChars hname (c := '\n') rfl]
  generalize hsource : '+' :: (name ++ '=' :: text) = source at H hwhole
  cases H with
  | proseLine => exact absurd (by simp) hwhole
  | segmentLine _ he => rcases he with rfl | rfl <;> exact absurd (by simp) hwhole
  | segment h =>
    rcases h with @⟨indent, name', t, _, hindent, hname', ht, -⟩
    have hnil : indent = [] := by
      cases indent with
      | nil => rfl
      | cons c indent =>
        obtain ⟨rfl, -⟩ := List.cons.inj hsource
        exact absurd List.mem_cons_self (hindent.not_mem nofun nofun)
    rw [hnil] at hsource
    have hparts : name ++ '=' :: text = name' ++ t := (List.cons.inj hsource).2
    generalize m.value = x at ht ⊢
    cases ht with
    | bare =>
      have hmem : '=' ∈ name' := by
        rw [← List.append_nil name', ← hparts]
        simp
      exact absurd hmem (Identifier.not_mem_of_ofChars hname' rfl)
    | value hvalue =>
      have hnot : '=' ∉ name := Identifier.not_mem_of_ofChars hname rfl
      obtain ⟨-, -, rfl⟩ := (List.append_cons_inj_of_notMem hnot hassign).mp hparts
      exact hvalue

end Grammar

theorem Marker.value_of_parse {name text : String} {i : Identifier} {m : Marker}
    (hname : Identifier.parse name = .ok i) (hline : '\n' ∉ text.toList)
    (hassign : '=' ∉ text.toList) (hparse : parse ("+" ++ name ++ "=" ++ text) = .ok [m]) :
    Grammar.Value text.toList m.value := by
  have H : Grammar.Block [] ("+" ++ name ++ "=" ++ text).toList [m] :=
    Cursor.block_of_tokens Position.endOf_nil.symm hparse
  rw [toList_assignment] at H
  exact H.value hname hline hassign

/-- A value that is written as a decimal integer beyond 64 bits holds the rounded integer. -/
theorem IsDecimal.exists_float {text : List Char} {n : Int} {x : Literal}
    (h : IsDecimal text n) (hn : n < -2 ^ 63 ∨ 2 ^ 63 ≤ n) (hvalue : Grammar.Value text x) :
    ∃ y, x = .float y ∧ wholeNumber? y = some (rounded n) := by
  obtain ⟨c, cs, rfl⟩ := List.exists_cons_of_ne_nil (h.ne_nil_text hn)
  have hc : Lexeme.startsNumber c = true := by
    rcases h.chars c List.mem_cons_self with hc | rfl | rfl
    · exact startsNumber_of_isDigit hc
    · rfl
    · rfl
  obtain ⟨v, hv, rfl⟩ := hvalue.number hc
  obtain ⟨rfl, hfinite⟩ := h.ofChars_eq_ok hn hv
  refine ⟨_, rfl, ?_⟩
  rw [Numeral.wholeNumber?_toFloat (by omega) hfinite]
  rcases hn with hneg | hpos
  · rw [rounded_of_neg (by omega), decide_eq_true (by omega), if_pos rfl]
  · rw [rounded_of_pos (by omega), decide_eq_false (by omega), if_neg Bool.false_ne_true]

/-! ### Bounds -/

section
variable {t : Destination} {x : Float} {r n min max : Int}

/-- The bounds of all integer types but one are among the integers of 64 signed bits. -/
theorem Destination.IsInteger.bounds_within (ht : t.IsInteger) (hb : t.bounds? = some (min, max)) :
    -2 ^ 63 ≤ min ∧ min ≤ 0 ∧
      (max ≤ 2 ^ 63 - 1 ∨ t = .unsigned 64 ∧ max = 2 ^ 64 - 1) := by
  cases ht with
  | byte | rune =>
    cases hb
    decide
  | unsigned hw =>
    rw [bounds?_unsigned hw] at hb
    rcases hw with rfl | rfl | rfl | rfl <;> cases hb <;> decide
  | signed hw =>
    rw [bounds?_signed hw] at hb
    rcases hw with rfl | rfl | rfl | rfl <;> cases hb <;> decide

/-- A float that holds a whole number overflows where the number is beyond 64 signed bits and beyond
the type. -/
theorem Family.floatMismatch_of_whole (hx : wholeNumber? x = some r)
    (hb : t.bounds? = some (min, max)) :
    floatMismatch x t =
      if (r < -2 ^ 63 ∨ 2 ^ 63 - 1 < r) ∧ (r < min ∨ max < r) then .overflow (.whole r) t
      else .kindMismatch t .float := by
  simp only [floatMismatch, hx, hb]
  rfl

end

namespace Converters

theorem convertTo_float (cs : Converters) (schema : Schema) {m : Marker} {t : Destination}
    {x : Float} (ht : t.dereferenced.IsInteger) (hm : m.value = .float x) :
    cs.convertTo schema m t = .error (Family.floatMismatch x t.dereferenced) := by
  rw [cs.convertTo_eq_integer schema m ht, convertAs, hm]
  rfl

/-- The conversion of a decimal integer beyond 64 signed bits to an integer type fails. It overflows
where the type does not reach to the number, and else, which is with 64 unsigned bits alone, it is a
float in place of an integer. Rounding onto a bound makes two exceptions: the thousand and
twenty-four numbers next below 64 signed bits are floats to every type, and the last as many of 64
unsigned bits overflow these. -/
theorem convertTo_oversized (cs : Converters) (schema : Schema) (t : Destination)
    (ht : t.dereferenced.IsInteger)
    {name text : String} {i : Identifier} {m : Marker} {n : Int}
    (hname : Identifier.parse name = .ok i) (hdecimal : IsDecimal text.toList n)
    (hn : n < -2 ^ 63 ∨ 2 ^ 63 ≤ n)
    (hparse : Marker.parse ("+" ++ name ++ "=" ++ text) = .ok [m]) :
    let u := t.dereferenced
    ∃ min max, u.bounds? = some (min, max) ∧
      if -2 ^ 63 - 2 ^ 10 ≤ n ∧ n < -2 ^ 63 then
        cs.convertTo schema m t = .error (.kindMismatch u .float)
      else if n < min ∨ max < n ∨ u = .unsigned 64 ∧ 2 ^ 64 - 2 ^ 10 ≤ n then
        cs.convertTo schema m t = .error (.overflow (.whole (rounded n)) u)
      else
        u = .unsigned 64 ∧ 2 ^ 63 ≤ n ∧ n < 2 ^ 64 ∧
          cs.convertTo schema m t = .error (.kindMismatch u .float) := by
  intro u
  obtain ⟨min, max, hb⟩ := ht.exists_bounds?
  have hvalue : Grammar.Value text.toList m.value :=
    Marker.value_of_parse hname (hdecimal.not_mem rfl nofun nofun)
      (hdecimal.not_mem rfl nofun nofun) hparse
  obtain ⟨x, hm, hx⟩ := hdecimal.exists_float hn hvalue
  have hconvert := cs.convertTo_float schema ht hm
  rw [Family.floatMismatch_of_whole hx hb] at hconvert
  obtain ⟨hmin, hzero, hmax⟩ := ht.bounds_within hb
  refine ⟨min, max, hb, ?_⟩
  rcases hn with hn | hn
  · obtain ⟨hle, hlt⟩ := rounded_bounds_of_lt hn
    split
    · next hnear => rw [hconvert, if_neg (by omega)]
    · next hfar => rw [hconvert, if_pos (by omega), if_pos (by omega)]
  · obtain ⟨hge, htop⟩ := rounded_bounds_of_le hn
    rw [if_neg (by omega)]
    rcases hmax with hmax | ⟨hu, hmax⟩
    · rw [hconvert, if_pos (by omega), if_pos (by omega)]
    · by_cases hnear : 2 ^ 64 - 2 ^ 10 ≤ n
      · rw [if_pos (.inr (.inr ⟨hu, hnear⟩)), hconvert, if_pos (by omega)]
      · rw [if_neg (by omega)]
        exact ⟨hu, hn, by omega, by rw [hconvert, if_neg (by omega)]⟩

/-- The greatest number of 64 unsigned bits that is not rounded beyond them. -/
theorem convertTo_oversized_unsigned :
    let u64 : Destination := .unsigned 64
    let m : Marker := ⟨⟨"a", "b", "c"⟩, .float 18446744073709550591, .start⟩
    u64.dereferenced.IsInteger ∧ Identifier.parse "a:b:c" = .ok ⟨"a", "b", "c"⟩ ∧
      IsDecimal "18446744073709550591".toList 18446744073709550591 ∧
      Marker.parse ("+" ++ "a:b:c" ++ "=" ++ "18446744073709550591") = .ok [m] ∧
      Converters.empty.convertTo .empty m u64 = .error (.kindMismatch u64 .float) := by
  intro u64 m
  have ht : u64.dereferenced.IsInteger := .unsigned (by decide)
  have hname : Identifier.parse "a:b:c" = .ok ⟨"a", "b", "c"⟩ := by decide +kernel
  have hdecimal : IsDecimal "18446744073709550591".toList 18446744073709550591 :=
    ⟨by decide, _, (spells_iff (by decide)).mpr ⟨_, rfl, rfl⟩, rfl⟩
  have hparse : Marker.parse ("+" ++ "a:b:c" ++ "=" ++ "18446744073709550591") = .ok [m] :=
    Marker.parse_of_value hname (.scalar (.number (n := .float _) rfl))
  obtain ⟨min, max, hb, h⟩ :=
    convertTo_oversized .empty .empty u64 ht hname hdecimal (.inr (by decide)) hparse
  cases hb
  rw [if_neg (by decide), if_neg (by decide)] at h
  exact ⟨ht, hname, hdecimal, hparse, h.2.2.2⟩

/-- The greatest number of 64 unsigned bits is reported as beyond them, and the first number below
64 signed bits as a float. -/
theorem convertTo_rounded_onto_bounds :
    let greatest : Marker := ⟨⟨"a", "b", "c"⟩, .float 18446744073709551615, .start⟩
    let below : Marker := ⟨⟨"a", "b", "c"⟩, .float (-9223372036854775809), .start⟩
    (IsDecimal "18446744073709551615".toList (2 ^ 64 - 1) ∧
      Marker.parse ("+" ++ "a:b:c" ++ "=" ++ "18446744073709551615") = .ok [greatest] ∧
      empty.convertTo .empty greatest (.unsigned 64) =
        .error (.overflow (.whole (2 ^ 64)) (.unsigned 64))) ∧
    IsDecimal "-9223372036854775809".toList (-2 ^ 63 - 1) ∧
      Marker.parse ("+" ++ "a:b:c" ++ "=" ++ "-9223372036854775809") = .ok [below] ∧
      empty.convertTo .empty below (.signed 64) = .error (.kindMismatch (.signed 64) .float) := by
  intro greatest below
  have hname : Identifier.parse "a:b:c" = .ok ⟨"a", "b", "c"⟩ := by decide +kernel
  refine ⟨⟨⟨by decide, _, (spells_iff (by decide)).mpr ⟨_, rfl, rfl⟩, rfl⟩, ?_, rfl⟩,
    ⟨by decide, _, (spells_iff (by decide)).mpr ⟨_, rfl, rfl⟩, rfl⟩, ?_, rfl⟩
  · exact Marker.parse_of_value hname (.scalar (.number (n := .float _) rfl))
  · exact Marker.parse_of_value hname (.scalar (.number (n := .float _) rfl))

end Converters

end Markers
