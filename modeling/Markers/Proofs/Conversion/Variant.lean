import Markers.Proofs.Conversion.Elements
import Markers.Proofs.Conversion.Registration

/-!
# Conversion errors by variant

Two conversions agree if they give one value or fail in one way (`ConversionError.Agree`). A type
that no family supports, and for which nothing is registered, fails for want of a converter; a type
that a family supports never does. At a type that a family holds, a literal is of the wrong kind or
it stands for no value of the type (`ConversionError.IsUnfit`).
-/

namespace Markers

namespace ConversionError

inductive Variant where
  | noConverter | kindMismatch | overflow | length | notScalar | element | custom
  deriving DecidableEq, Repr

def variant : ConversionError → Variant
  | noConverter _ => .noConverter
  | kindMismatch _ _ => .kindMismatch
  | overflow _ _ => .overflow
  | length _ _ => .length
  | notScalar _ => .notScalar
  | element _ _ => .element
  | custom _ => .custom

/-- The errors of a literal whose kind fits, for which the type has no value. -/
inductive IsUnfit : ConversionError → Prop
  | overflow : IsUnfit (.overflow v t)
  | length : IsUnfit (.length expected found)
  | notScalar : IsUnfit (.notScalar code)

theorem IsUnfit.variant_ne {e : ConversionError} (H : e.IsUnfit) : e.variant ≠ .kindMismatch := by
  cases H <;> simp [variant]

/-- The errors are of one variant. Those of list elements have one index, and one variant at the
root. -/
def Alike : ConversionError → ConversionError → Prop
  | element i e, element j e' => i = j ∧ e.root.variant = e'.root.variant
  | e, e' => e.variant = e'.variant

theorem Alike.refl (e : ConversionError) : e.Alike e := by
  cases e with
  | element => exact ⟨rfl, rfl⟩
  | _ => rfl

theorem Alike.variant {e e' : ConversionError} (h : e.Alike e') : e.variant = e'.variant := by
  cases e <;> cases e' <;> first | rfl | exact h

/-- Both conversions give the same value, or fail alike. -/
inductive Agree : Except ConversionError α → Except ConversionError α → Prop
  | ok (a : α) : Agree (.ok a) (.ok a)
  | error (h : e.Alike e') : Agree (.error e) (.error e')

theorem Agree.refl (r : Except ConversionError α) : Agree r r := by
  cases r with
  | ok a => exact .ok a
  | error e => exact .error (.refl e)

end ConversionError

open ConversionError (Agree)

namespace Family

variable {f : Family} {t : Destination} {x : Literal} {e : ConversionError}

theorem floatMismatch_error (y : Float) (t : Destination) :
    floatMismatch y t = mismatch (.float y) t ∨ (floatMismatch y t).IsUnfit := by
  unfold floatMismatch
  split
  · split
    · exact .inr .overflow
    · exact .inl rfl
  · exact .inl rfl

theorem check_error (h : f.check x t = .error e) : e = mismatch x t ∨ e.IsUnfit := by
  unfold check at h
  cases f with
  | any => cases h
  | integer =>
    cases x with
    | float y =>
      cases h
      exact floatMismatch_error y t
    | string s =>
      simp only at h
      split at h <;> cases h
      exact .inl rfl
    | _ =>
      cases h <;> exact .inl rfl
  | _ =>
    simp only at h
    split at h <;> cases h
    exact .inl rfl

/-! ### Single values -/

theorem isUnfit_of_ofString {s : String} (ht : string.holds t = true)
    (h : ofString s t = .error e) : e.IsUnfit := by
  cases t with
  | string => cases h
  | sequence u =>
    cases u with
    | byte | rune => cases h
    | _ => cases ht
  | _ => cases ht

/-- An integer type is one of characters or has one of four widths. -/
theorem width_of_holds_integer (h : integer.holds t = true) : t = .byte ∨ t = .rune ∨
    ∃ w, (t = .signed w ∨ t = .unsigned w) ∧ (w = 8 ∨ w = 16 ∨ w = 32 ∨ w = 64) := by
  cases t with
  | byte => exact .inl rfl
  | rune => exact .inr (.inl rfl)
  | signed w => exact .inr (.inr ⟨w, .inl rfl, by simpa [holds, or_assoc] using h⟩)
  | unsigned w => exact .inr (.inr ⟨w, .inr rfl, by simpa [holds, or_assoc] using h⟩)
  | _ => cases h

theorem isUnfit_of_ofInt {n : Int} (ht : integer.holds t = true) (h : ofInt n t = .error e) :
    e.IsUnfit := by
  have hbounded {min max : Int} {r : Except ConversionError Value}
      (hr : ∀ e, r = .error e → e.IsUnfit)
      (h : (if n < min ∨ max < n then .error (.overflow (.whole n) t) else r) = .error e) :
      e.IsUnfit := by
    split at h
    · cases h
      exact .overflow
    · exact hr e h
  rcases width_of_holds_integer ht with rfl | rfl | ⟨w, rfl | rfl, rfl | rfl | rfl | rfl⟩
  case inr.inl =>
    refine hbounded ?_ h
    intro e h
    simp only [ofBounded] at h
    split at h <;> cases h
    exact .notScalar
  all_goals
    refine hbounded ?_ h
    intro e h
    cases h

theorem isUnfit_of_ofSingle {s : String} (ht : integer.holds t = true)
    (h : ofSingle s t = .error e) : e.IsUnfit := by
  unfold ofSingle at h
  split at h
  · exact isUnfit_of_ofInt ht h
  · cases h
    exact .length

theorem isUnfit_of_toFloat32 {y : Float} (h : toFloat32 y t = .error e) : e.IsUnfit := by
  unfold toFloat32 at h
  split at h <;> cases h
  exact .overflow

theorem isUnfit_of_ofFloat {y : Float} (ht : float.holds t = true) (h : ofFloat y t = .error e) :
    e.IsUnfit := by
  cases t with
  | float w =>
    have hw : w = 32 ∨ w = 64 := by simpa [holds] using ht
    rcases hw with rfl | rfl
    · exact isUnfit_of_toFloat32 (map_eq_error_iff.mp h)
    · cases h
  | _ => cases ht

theorem isUnfit_of_ofComplex {re im : Float} (ht : complex.holds t = true)
    (h : ofComplex re im t = .error e) : e.IsUnfit := by
  cases t with
  | complex w =>
    have hw : w = 64 ∨ w = 128 := by simpa [holds] using ht
    rcases hw with rfl | rfl
    · simp only [ofComplex, bind, Except.bind] at h
      split at h
      · next hre =>
        cases h
        exact isUnfit_of_toFloat32 hre
      · split at h
        · next him =>
          cases h
          exact isUnfit_of_toFloat32 him
        · cases h
    · cases h
  | _ => cases ht

/-- At a type that the family holds, a literal that passes the check fails only if the type has no
value for it. -/
theorem isUnfit_of_convert {element : Literal → Except ConversionError Value}
    (ht : f.holds t = true) (hcheck : f.check x t = .ok ())
    (h : f.convert element x t = .error e) : e.IsUnfit := by
  cases f with
  | list =>
    rw [holds_list] at ht
    cases ht
  | any => cases h
  | bool =>
    cases x with
    | bool => cases h
    | _ => cases hcheck
  | string =>
    cases x with
    | string s => exact isUnfit_of_ofString ht h
    | _ => cases hcheck
  | integer =>
    cases x with
    | int n => exact isUnfit_of_ofInt ht h
    | string s =>
      simp only [check, convert] at hcheck h
      split at hcheck
      · next hcharacter =>
        rw [if_pos hcharacter] at h
        exact isUnfit_of_ofSingle ht h
      · cases hcheck
    | _ => cases hcheck
  | float =>
    cases x with
    | float y => exact isUnfit_of_ofFloat ht h
    | _ => cases hcheck
  | complex =>
    cases x with
    | complex re im => exact isUnfit_of_ofComplex ht h
    | _ => cases hcheck

/-- The error of a literal by itself is the last cause, and it lacks no converter. -/
theorem root_of_mismatch_or_unfit (h : e = mismatch x t ∨ e.IsUnfit) :
    e.root = e ∧ e.variant ≠ .element ∧ e.variant ≠ .noConverter := by
  rcases h with rfl | hunfit
  · simp [mismatch, ConversionError.root, ConversionError.variant]
  · cases hunfit <;> simp [ConversionError.root, ConversionError.variant]

/-- At a type that the family holds, a literal is of the wrong kind or stands for no value. -/
theorem convert_error {element : Literal → Except ConversionError Value}
    (ht : f.holds t = true) (h : f.convert element x t = .error e) :
    e = mismatch x t ∨ e.IsUnfit := by
  cases hcheck : f.check x t with
  | error e' =>
    rw [convert_of_check_error hcheck] at h
    cases h
    exact check_error hcheck
  | ok => exact .inr (isUnfit_of_convert ht hcheck h)

/-! ### Lists -/

/-- A family has a way to convert to each type that it supports. -/
theorem variant_of_convert {element : Literal → Except ConversionError Value}
    (hf : f.supports t = true) (h : f.convert element x t = .error e) :
    e.variant ≠ .noConverter := by
  rcases holds_of_supports hf with hholds | ⟨rfl, u, rfl, -⟩
  · exact (root_of_mismatch_or_unfit (convert_error hholds h)).2.2
  · cases x with
    | list xs =>
      obtain ⟨k, cause, -, rfl⟩ := ofElements_eq_error_iff.mp (map_eq_error_iff.mp h)
      exact nofun
    | _ =>
      cases h
      exact nofun

end Family

namespace Converters

variable {cs : Converters} {s : Schema} {t : Destination} {m : Marker} {e : ConversionError}

theorem convertTo_dereferenced (cs : Converters) (s : Schema) (m : Marker) (t : Destination) :
    cs.convertTo s m t.dereferenced = cs.convertTo s m t := by
  induction t with
  | reference t ih => exact ih
  | _ => rfl

/-- The type behind all references is served as it is. -/
theorem convertTo_eq_serve (cs : Converters) (s : Schema) (m : Marker) (t : Destination) :
    ∃ element, cs.convertTo s m t = cs.serve s element m t.dereferenced := by
  have hne := t.dereferenced_ne_reference
  rw [← convertTo_dereferenced]
  generalize t.dereferenced = d at hne ⊢
  cases d with
  | reference u => exact absurd rfl (hne u)
  | _ => exact ⟨_, rfl⟩

/-- Without a family and without anything registered there is no converter. -/
theorem convertTo_of_unsupported (hf : ∀ f : Family, f.supports t.dereferenced = false)
    (hc : cs.find? t.dereferenced = none) (s : Schema) (m : Marker) :
    cs.convertTo s m t = .error (.noConverter t.dereferenced) := by
  obtain ⟨element, hserve⟩ := cs.convertTo_eq_serve s m t
  rw [← Destination.dereferenced_dereferenced] at hf hc
  rw [hserve, serve, resolve_of_unsupported hf hc, Destination.dereferenced_dereferenced]

/-- A family converts to what it serves, whatever its check says. -/
theorem convertTo_eq_convertAs {f : Family} (hf : f.supports t.dereferenced = true) (s : Schema)
    (m : Marker) : cs.convertTo s m t = cs.convertAs s f m t.dereferenced := by
  rw [← convertTo_dereferenced]
  rcases Family.holds_of_supports hf with hholds | ⟨rfl, u, hu, -⟩
  · exact convertTo_of_holds hholds s _ m
  · rw [hu] at hf ⊢
    exact convertTo_list hf s m

/-- A type that a family supports never lacks a converter. -/
theorem variant_of_convertTo (ht : ∃ f : Family, f.supports t.dereferenced = true)
    (h : cs.convertTo s m t = .error e) : e.variant ≠ .noConverter := by
  obtain ⟨f, hf⟩ := ht
  rw [convertTo_eq_convertAs hf] at h
  exact Family.variant_of_convert hf h

end Converters

end Markers
