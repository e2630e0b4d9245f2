import Markers.Proofs.Conversion.Elements
import Markers.Proofs.Conversion.Registration

/-!
# Converted values have their type

What a family converts a literal to inhabits the destination (`Value.Inhabits`): it has the
representation that the type asks for, and at the unconstrained type it is the literal itself. A
list has one value for each literal, and each of them inhabits the type of the elements.
-/

namespace Markers

/-- A value has the representation of a type, and where the type asks for none it is the literal
that was converted. -/
inductive Value.Inhabits : Value → Destination → Literal → Prop
  | bool (b : Bool) : Inhabits (.bool b) .bool x
  | string (s : String) : Inhabits (.string s) .string x
  | byte (n : UInt8) : Inhabits (.u8 n) .byte x
  | rune (c : Char) : Inhabits (.char c) .rune x
  | u8 (n : UInt8) : Inhabits (.u8 n) (.unsigned 8) x
  | u16 (n : UInt16) : Inhabits (.u16 n) (.unsigned 16) x
  | u32 (n : UInt32) : Inhabits (.u32 n) (.unsigned 32) x
  | u64 (n : UInt64) : Inhabits (.u64 n) (.unsigned 64) x
  | i8 (n : Int8) : Inhabits (.i8 n) (.signed 8) x
  | i16 (n : Int16) : Inhabits (.i16 n) (.signed 16) x
  | i32 (n : Int32) : Inhabits (.i32 n) (.signed 32) x
  | i64 (n : Int64) : Inhabits (.i64 n) (.signed 64) x
  | f32 (y : Float32) : Inhabits (.f32 y) (.float 32) x
  | f64 (y : Float) : Inhabits (.f64 y) (.float 64) x
  | complex64 (re im : Float32) : Inhabits (.complex64 re im) (.complex 64) x
  | complex128 (re im : Float) : Inhabits (.complex128 re im) (.complex 128) x
  | any : Inhabits (.literal x) .any x
  | bytes (bs : List UInt8) : Inhabits (.bytes bs) (.sequence .byte) x
  | chars (cs : List Char) : Inhabits (.chars cs) (.sequence .rune) x
  | list (hbyte : t ≠ .byte) (hrune : t ≠ .rune) (hlength : vs.length = xs.length)
    (H : ∀ v x, (v, x) ∈ vs.zip xs → Inhabits v t x) :
    Inhabits (.list vs) (.sequence t) (.list xs)
  | reference (H : Inhabits v t x) : Inhabits v (.reference t) x

open Value (Inhabits)

namespace Family

variable {f : Family} {t : Destination} {v : Value} {x : Literal}

/-! ### Single values -/

theorem inhabits_of_ofString {s : String} (h : ofString s t = .ok v) : Inhabits v t x := by
  unfold ofString at h
  split at h <;> cases h <;> constructor

theorem inhabits_of_ofBounded {n : Int} (h : ofBounded n t = .ok v) : Inhabits v t x := by
  unfold ofBounded at h
  split at h
  case h_2 =>
    split at h <;> cases h
    exact .rune _
  all_goals cases h <;> constructor

theorem inhabits_of_ofInt {n : Int} (h : ofInt n t = .ok v) : Inhabits v t x := by
  unfold ofInt at h
  split at h
  · cases h
  · split at h
    · cases h
    · exact inhabits_of_ofBounded h

theorem inhabits_of_ofSingle {s : String} (h : ofSingle s t = .ok v) : Inhabits v t x := by
  unfold ofSingle at h
  split at h
  · exact inhabits_of_ofInt h
  · cases h

theorem inhabits_of_ofFloat {y : Float} (h : ofFloat y t = .ok v) : Inhabits v t x := by
  unfold ofFloat at h
  split at h
  · obtain ⟨z, -, rfl⟩ := map_eq_ok_iff.mp h
    exact .f32 z
  · cases h
    exact .f64 y
  · cases h

theorem inhabits_of_ofComplex {re im : Float} (h : ofComplex re im t = .ok v) :
    Inhabits v t x := by
  unfold ofComplex at h
  split at h
  · cases hre : toFloat32 re (.complex 64) with
    | error e => simp [hre, bind, Except.bind] at h
    | ok re' =>
      cases him : toFloat32 im (.complex 64) with
      | error e => simp [hre, him, bind, Except.bind] at h
      | ok im' =>
        simp only [hre, him, bind, Except.bind, pure, Except.pure] at h
        cases h
        exact .complex64 re' im'
  · cases h
    exact .complex128 re im
  · cases h

/-- What a family makes of a literal at a type that it holds inhabits the type. -/
theorem inhabits_of_convert {e : Literal → Except ConversionError Value} (hf : f.holds t = true)
    (h : f.convert e x t = .ok v) : Inhabits v t x := by
  unfold convert at h
  split at h
  · rw [holds_list] at hf
    cases hf
  · cases t <;> cases hf
    cases h
    exact .bool _
  · exact inhabits_of_ofString h
  · exact inhabits_of_ofInt h
  · split at h
    · exact inhabits_of_ofSingle h
    · cases h
  · cases h
  · exact inhabits_of_ofFloat h
  · exact inhabits_of_ofComplex h
  · cases t <;> cases hf
    cases h
    exact .any
  · cases h

/-! ### Lists -/

/-- What a list converts to is a list, of whose values each is what an element converts to. -/
theorem forall₂_of_convert_list {e : Literal → Except ConversionError Value}
    (h : list.convert e x (.sequence t) = .ok v) :
    ∃ xs vs, x = .list xs ∧ v = .list vs ∧ List.Forall₂ (fun v x => e x = .ok v) vs xs := by
  cases x with
  | list xs =>
    obtain ⟨vs, hvs, rfl⟩ := map_eq_ok_iff.mp h
    exact ⟨xs, vs, rfl, rfl, ofElements_eq_ok_iff.mp hvs⟩
  | _ => cases h

theorem ne_character_of_isElement (h : isElement t.dereferenced = true) :
    t ≠ .byte ∧ t ≠ .rune := by
  constructor
  · rintro rfl
    cases h
  · rintro rfl
    cases h

end Family

namespace Converters

variable {cs : Converters} {t : Destination} {m : Marker} {v : Value}

theorem inhabits_of_served {s : Schema} (ht : t.Served) (h : cs.convertTo s m t = .ok v) :
    Inhabits v t m.value := by
  induction ht generalizing m v with
  | reference _ ih => exact .reference (ih h)
  | single hholds =>
    rw [convertTo_of_holds hholds s fun _ => .error (.noConverter .any)] at h
    exact Family.inhabits_of_convert hholds h
  | list hlist _ ih =>
    rw [convertTo_list hlist] at h
    obtain ⟨xs, vs, hx, rfl, hvs⟩ := Family.forall₂_of_convert_list h
    obtain ⟨hbyte, hrune⟩ := Family.ne_character_of_isElement hlist
    obtain ⟨hlength, hzip⟩ := List.forall₂_iff_zip.mp hvs
    rw [hx]
    refine .list hbyte hrune hlength ?_
    intro v x hmem
    exact ih (hzip hmem)

/-- What a marker's value converts to inhabits the type that it was converted to, if a family
supports the type. -/
theorem inhabits_of_convertTo (cs : Converters) (s : Schema) (m : Marker) (t : Destination)
    (v : Value) (ht : ∃ f : Family, f.supports t.dereferenced = true)
    (h : cs.convertTo s m t = .ok v) : Inhabits v t m.value :=
  inhabits_of_served (Family.served_of_supports ht) h

theorem inhabits_of_convertTo_list :
    let t := Destination.reference (.sequence (.reference (.unsigned 8)))
    let m : Marker := ⟨⟨"a", "b", "c"⟩, .list [.int 7, .int 200], .start⟩
    (∃ f : Family, f.supports t.dereferenced = true) ∧
      empty.convertTo .empty m t = .ok (.list [.u8 7, .u8 200]) ∧
        Inhabits (.list [.u8 7, .u8 200]) t m.value :=
  ⟨⟨.list, rfl⟩, rfl, inhabits_of_convertTo empty .empty _ _ _ ⟨.list, rfl⟩ rfl⟩

end Converters

end Markers
