import Markers.Proofs.Conversion.Variant
import Mathlib.Algebra.Ring.Int.Defs

/-!
# Integers keep their value

Between the bounds of an integer type every number has a value that holds it (`exists_holds`), but
for the surrogates among the characters. The conversion to the type gives just that value
(`ofInt_eq_ok_iff`); a number without one is an error that names it, so nothing is ever truncated.
-/

namespace Markers

/-- The types of characters, and of numbers of a width that a machine has. -/
inductive Destination.IsInteger : Destination → Prop
  | byte : IsInteger .byte
  | rune : IsInteger .rune
  | unsigned (hw : w = 8 ∨ w = 16 ∨ w = 32 ∨ w = 64) : IsInteger (.unsigned w)
  | signed (hw : w = 8 ∨ w = 16 ∨ w = 32 ∨ w = 64) : IsInteger (.signed w)

/-- A value has the representation of an integer type, and it represents the number. -/
inductive Value.Holds : Value → Destination → Int → Prop
  | byte (h : x.toNat = n) : Holds (.u8 x) .byte n
  | rune (h : c.toNat = n) : Holds (.char c) .rune n
  | u8 (h : x.toNat = n) : Holds (.u8 x) (.unsigned 8) n
  | u16 (h : x.toNat = n) : Holds (.u16 x) (.unsigned 16) n
  | u32 (h : x.toNat = n) : Holds (.u32 x) (.unsigned 32) n
  | u64 (h : x.toNat = n) : Holds (.u64 x) (.unsigned 64) n
  | i8 (h : x.toInt = n) : Holds (.i8 x) (.signed 8) n
  | i16 (h : x.toInt = n) : Holds (.i16 x) (.signed 16) n
  | i32 (h : x.toInt = n) : Holds (.i32 x) (.signed 32) n
  | i64 (h : x.toInt = n) : Holds (.i64 x) (.signed 64) n

/-- The code points that are no characters. -/
def IsSurrogate (n : Int) : Prop := 0xd800 ≤ n ∧ n ≤ 0xdfff

namespace Destination

variable {t : Destination} {w : Nat}

theorem bounds?_unsigned (hw : w = 8 ∨ w = 16 ∨ w = 32 ∨ w = 64) :
    (unsigned w).bounds? = some (0, 2 ^ w - 1) := by
  rcases hw with rfl | rfl | rfl | rfl <;> rfl

theorem bounds?_signed (hw : w = 8 ∨ w = 16 ∨ w = 32 ∨ w = 64) :
    (signed w).bounds? = some (-2 ^ (w - 1), 2 ^ (w - 1) - 1) := by
  rcases hw with rfl | rfl | rfl | rfl <;> rfl

theorem isCharacter_iff : t.isCharacter = true ↔ t = .byte ∨ t = .rune := by
  simp only [isCharacter, Bool.or_eq_true, decide_eq_true_eq]

theorem IsInteger.exists_bounds? (ht : t.IsInteger) : ∃ min max, t.bounds? = some (min, max) := by
  cases ht with
  | byte => exact ⟨_, _, rfl⟩
  | rune => exact ⟨_, _, rfl⟩
  | unsigned hw => exact ⟨_, _, bounds?_unsigned hw⟩
  | signed hw => exact ⟨_, _, bounds?_signed hw⟩

end Destination

open Destination (IsInteger bounds?_unsigned bounds?_signed)

namespace Value

variable {t : Destination} {v : Value} {n min max : Int}

/-- Every number between the bounds is held by a value, unless a surrogate is to be a character. -/
theorem exists_holds (ht : t.IsInteger) (hb : t.bounds? = some (min, max)) (hmin : min ≤ n)
    (hmax : n ≤ max) (hrune : t = .rune → ¬IsSurrogate n) : ∃ v : Value, v.Holds t n := by
  cases ht with
  | byte =>
    cases hb
    exact ⟨.u8 (.ofNat n.toNat), .byte (by rw [UInt8.toNat_ofNat']; omega)⟩
  | rune =>
    cases hb
    have hvalid : n.toNat.isValidChar := by
      have hsurrogate := hrune rfl
      simp only [IsSurrogate] at hsurrogate
      simp only [Nat.isValidChar]
      omega
    exact ⟨.char (.ofNatAux n.toNat hvalid), .rune (Int.toNat_of_nonneg hmin)⟩
  | unsigned hw =>
    rw [bounds?_unsigned hw] at hb
    rcases hw with rfl | rfl | rfl | rfl <;> cases hb
    · exact ⟨.u8 (.ofNat n.toNat), .u8 (by rw [UInt8.toNat_ofNat']; omega)⟩
    · exact ⟨.u16 (.ofNat n.toNat), .u16 (by rw [UInt16.toNat_ofNat']; omega)⟩
    · exact ⟨.u32 (.ofNat n.toNat), .u32 (by rw [UInt32.toNat_ofNat']; omega)⟩
    · exact ⟨.u64 (.ofNat n.toNat), .u64 (by rw [UInt64.toNat_ofNat']; omega)⟩
  | signed hw =>
    rw [bounds?_signed hw] at hb
    rcases hw with rfl | rfl | rfl | rfl <;> cases hb
    · exact ⟨.i8 (.ofInt n), .i8 (Int8.toInt_ofInt_of_le (by omega) (by omega))⟩
    · exact ⟨.i16 (.ofInt n), .i16 (Int16.toInt_ofInt_of_le (by omega) (by omega))⟩
    · exact ⟨.i32 (.ofInt n), .i32 (Int32.toInt_ofInt_of_le (by omega) (by omega))⟩
    · exact ⟨.i64 (.ofInt n), .i64 (Int64.toInt_ofInt_of_le (by omega) (by omega))⟩

/-- A number that a value holds is between the bounds of the type. -/
theorem Holds.bounds (h : v.Holds t n) :
    ∃ min max, t.bounds? = some (min, max) ∧ min ≤ n ∧ n ≤ max := by
  cases h with
  | @byte _ x h =>
    have hx := x.toNat_lt
    exact ⟨0, 0xff, rfl, by omega, by omega⟩
  | @rune _ c h =>
    have hc : c.toNat.isValidChar := c.valid
    simp only [Nat.isValidChar] at hc
    exact ⟨0, 0x10ffff, rfl, by omega, by omega⟩
  | @u8 _ x h | @u16 _ x h | @u32 _ x h | @u64 _ x h =>
    have hx := x.toNat_lt
    exact ⟨_, _, bounds?_unsigned (by decide), by omega, by omega⟩
  | @i8 _ x h | @i16 _ x h | @i32 _ x h | @i64 _ x h =>
    have hmin := x.le_toInt
    have hmax := x.toInt_lt
    exact ⟨_, _, bounds?_signed (by decide), by omega, by omega⟩

/-- A value that holds a number of 64 signed bits reads as it, but for a character. -/
theorem Holds.signed? {i : Int64} (h : v.Holds t n) (ht : t ≠ .rune) (hi : i.toInt = n) :
    v.signed? = some i := by
  have hnat {x : Nat} (hx : x = n) : Int64.ofNat x = i := by
    rw [← Int64.ofInt_eq_ofNat, hx, ← hi, Int64.ofInt_toInt]
  cases h with
  | rune => exact absurd rfl ht
  | byte h | u8 h | u16 h | u32 h => exact congrArg some (hnat h)
  | u64 h =>
    have hlt := i.toInt_lt
    rw [Value.signed?, if_pos (by omega), hnat h]
  | @i8 _ x h | @i16 _ x h | @i32 _ x h =>
    exact congrArg some (Int64.toInt.inj (by rw [x.toInt_toInt64, h, hi]))
  | i64 h => exact congrArg some (Int64.toInt.inj (by rw [h, hi]))

end Value

namespace Family

variable {t : Destination} {v : Value} {n min max : Int}

theorem ofBounded_of_holds (h : v.Holds t n) : ofBounded n t = .ok v := by
  cases h with
  | rune h => rw [← h, ofBounded, Int.toNat_natCast, scalarValue?_toNat]
  | byte h | u8 h => rw [← h, ofBounded, Int.toNat_natCast, UInt8.ofNat_toNat]
  | u16 h => rw [← h, ofBounded, Int.toNat_natCast, UInt16.ofNat_toNat]
  | u32 h => rw [← h, ofBounded, Int.toNat_natCast, UInt32.ofNat_toNat]
  | u64 h => rw [← h, ofBounded, Int.toNat_natCast, UInt64.ofNat_toNat]
  | i8 h => rw [← h, ofBounded, Int8.ofInt_toInt]
  | i16 h => rw [← h, ofBounded, Int16.ofInt_toInt]
  | i32 h => rw [← h, ofBounded, Int32.ofInt_toInt]
  | i64 h => rw [← h, ofBounded, Int64.ofInt_toInt]

theorem ofInt_of_holds (h : v.Holds t n) : ofInt n t = .ok v := by
  obtain ⟨min, max, hb, hmin, hmax⟩ := h.bounds
  simp only [ofInt, hb]
  rw [if_neg (by omega), ofBounded_of_holds h]

theorem ofInt_of_outside (hb : t.bounds? = some (min, max)) (h : n < min ∨ max < n) :
    ofInt n t = .error (.overflow (.whole n) t) := by
  simp only [ofInt, hb, if_pos h]

theorem ofInt_surrogate (h : IsSurrogate n) : ofInt n .rune = .error (.notScalar n.toNat) := by
  unfold IsSurrogate at h
  have hinvalid : ¬n.toNat.isValidChar := by
    simp only [Nat.isValidChar]
    omega
  have hb : Destination.rune.bounds? = some (0, 0x10ffff) := rfl
  simp only [ofInt, hb]
  rw [if_neg (by omega), ofBounded, scalarValue?, if_neg hinvalid]

/-- A number converts to a value exactly if the value holds it. -/
theorem ofInt_eq_ok_iff (ht : t.IsInteger) : ofInt n t = .ok v ↔ v.Holds t n := by
  constructor
  · intro h
    obtain ⟨min, max, hb⟩ := ht.exists_bounds?
    have hbounds : ¬(n < min ∨ max < n) := by
      intro houtside
      rw [ofInt_of_outside hb houtside] at h
      cases h
    have hrune : t = .rune → ¬IsSurrogate n := by
      rintro rfl hsurrogate
      rw [ofInt_surrogate hsurrogate] at h
      cases h
    obtain ⟨w, hw⟩ := Value.exists_holds ht hb (by omega) (by omega) hrune
    rw [ofInt_of_holds hw] at h
    cases h
    exact hw
  · exact ofInt_of_holds

theorem ofSingle_of_ne {s : String} (hs : ∀ c, s.toList ≠ [c]) :
    ofSingle s t = .error (.length 1 s.toList.length) := by
  unfold ofSingle
  split
  · next c h => exact absurd h (hs c)
  · rfl

theorem supports_of_isInteger (ht : t.IsInteger) : integer.supports t = true := by
  cases ht with
  | byte => rfl
  | rune => rfl
  | unsigned hw | signed hw =>
    rcases hw with rfl | rfl | rfl | rfl <;> rfl

end Family

namespace Converters

variable {cs : Converters} {schema : Schema} {m : Marker} {t : Destination}

theorem convertTo_eq_integer (cs : Converters) (schema : Schema) (m : Marker)
    (ht : t.dereferenced.IsInteger) :
    cs.convertTo schema m t = cs.convertAs schema .integer m t.dereferenced :=
  convertTo_eq_convertAs (Family.supports_of_isInteger ht) schema m

theorem convertTo_int (cs : Converters) (schema : Schema) {i : Int64}
    (ht : t.dereferenced.IsInteger) (hm : m.value = .int i) :
    cs.convertTo schema m t = Family.ofInt i.toInt t.dereferenced := by
  rw [cs.convertTo_eq_integer schema m ht, convertAs, hm]
  rfl

theorem convertTo_string (cs : Converters) (schema : Schema) {s : String}
    (ht : t.dereferenced.IsInteger) (hm : m.value = .string s) :
    cs.convertTo schema m t =
      if t.dereferenced.isCharacter then Family.ofSingle s t.dereferenced
      else .error (.kindMismatch t.dereferenced .string) := by
  rw [cs.convertTo_eq_integer schema m ht, convertAs, hm]
  rfl

/-- A string of one character converts like the number of the character. -/
theorem ofSingle_eq_convertTo {s : String} {c : Char} (ht : t.dereferenced.IsInteger)
    (hs : s.toList = [c]) :
    Family.ofSingle s t.dereferenced =
      cs.convertTo schema (m.withValue (.int (.ofNat c.toNat))) t := by
  have hc : c.toNat.isValidChar := c.valid
  have hcode : (Int64.ofNat c.toNat).toInt = c.toNat := by
    simp only [Nat.isValidChar] at hc
    exact Int64.toInt_ofNat_of_lt (by omega)
  rw [cs.convertTo_int schema ht rfl, hcode, Family.ofSingle, hs]

/-- At a type of integers or characters, also behind references, a number between the bounds
converts to the value that holds it. Any other is reported with its own digits, and a surrogate in
place of a character as what it is. A string stands for a character only, and only if it is just
that character. -/
theorem convertTo_integer (cs : Converters) (schema : Schema) (m : Marker) (t : Destination)
    (ht : t.dereferenced.IsInteger) :
    let u := t.dereferenced
    ∃ min max, u.bounds? = some (min, max) ∧
      (∀ i : Int64, m.value = .int i →
        let n := i.toInt
        if n < min ∨ max < n then
          cs.convertTo schema m t = .error (.overflow (.whole n) u) ∧
            toString (Excess.whole n) = toString n
        else if u = .rune ∧ 0xd800 ≤ n ∧ n ≤ 0xdfff then
          cs.convertTo schema m t = .error (.notScalar n.toNat)
        else
          ∃ v, cs.convertTo schema m t = .ok v ∧ v.Holds u n ∧ (u ≠ .rune → v.signed? = some i)) ∧
      ∀ s : String, m.value = .string s →
        if u = .byte ∨ u = .rune then
          match s.toList with
          | [c] => cs.convertTo schema m t = cs.convertTo schema (m.withValue (.int (.ofNat c.toNat))) t
          | chars => cs.convertTo schema m t = .error (.length 1 chars.length)
        else cs.convertTo schema m t = .error (.kindMismatch u .string) := by
  intro u
  obtain ⟨min, max, hb⟩ := ht.exists_bounds?
  refine ⟨min, max, hb, ?_, ?_⟩
  · intro i hm n
    have hconvert : cs.convertTo schema m t = Family.ofInt n u := cs.convertTo_int schema ht hm
    split
    · next houtside => exact ⟨by rw [hconvert, Family.ofInt_of_outside hb houtside], rfl⟩
    · next hbounds =>
      split
      · next hrune => rw [hconvert, hrune.1, Family.ofInt_surrogate hrune.2]
      · next hrune =>
        obtain ⟨v, hv⟩ := Value.exists_holds ht hb (by omega) (by omega) (not_and.mp hrune)
        exact ⟨v, by rw [hconvert, (Family.ofInt_eq_ok_iff ht).mpr hv], hv,
          fun hu => hv.signed? hu rfl⟩
  · intro s hm
    have hconvert := cs.convertTo_string schema ht hm
    split
    · next hu =>
      rw [if_pos (Destination.isCharacter_iff.mpr hu)] at hconvert
      split
      · next c hs => rw [hconvert, ofSingle_eq_convertTo ht hs]
      · next hne => rw [hconvert, Family.ofSingle_of_ne hne]
    · next hu => rw [hconvert, if_neg (mt Destination.isCharacter_iff.mp hu)]

theorem convertTo_integer_bounds :
    let i16 : Destination := .reference (.signed 16)
    let least : Marker := ⟨⟨"a", "b", "c"⟩, .int (-32768), .start⟩
    i16.dereferenced.IsInteger ∧ least.value = .int (-32768) ∧
      ∃ v, Converters.empty.convertTo .empty least i16 = .ok v ∧ v.Holds (.signed 16) (-32768) ∧
        v.signed? = some (-32768) := by
  intro i16 least
  have ht : i16.dereferenced.IsInteger := .signed (by decide)
  obtain ⟨min, max, hb, hint, -⟩ := convertTo_integer .empty .empty least i16 ht
  cases hb
  obtain ⟨v, hv, hholds, hsigned⟩ := hint (-32768) rfl
  exact ⟨ht, rfl, v, hv, hholds, hsigned nofun⟩

end Converters

end Markers
