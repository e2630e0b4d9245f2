import Markers.Registry

/-!
# Defining options

A call defines an option, or it is refused and leaves the registry as it is. What is defined stays
as it was defined (`le_afterCalls`), and what is found behind some calls was either found before
them or is what one of them defined (`find?_afterCalls_eq_none_iff`).
-/

namespace Markers.Registry

/-- All that is defined in the one registry is defined in the other, with the same descriptor. -/
instance : LE Registry where
  le r r' := ∀ name d, r.find? name = some d → r'.find? name = some d

/-- The registry behind a call that defines an option. A refused call leaves it as it is. -/
def afterCall (r : Registry) (d : Descriptor) : Registry :=
  match r.define d with
  | .ok r' => r'
  | .error _ => r

def afterCalls (r : Registry) (ds : List Descriptor) : Registry := ds.foldl afterCall r

/-- One of the calls defines the option of an identifier. -/
inductive Defines (name : String) : Registry → List Descriptor → Prop
  | head (hname : d.identifier = name) (h : r.define d = .ok r') : Defines name r (d :: ds)
  | tail (H : Defines name (r.afterCall d) ds) : Defines name r (d :: ds)

variable {r r' : Registry} {d : Descriptor} {ds : List Descriptor} {name : String}

/-! ### One definition -/

theorem find?_insertSorted (hd : ∀ e ∈ ds, e.identifier ≠ d.identifier) (name : String) :
    (insertSorted d ds).find? (·.identifier = name) =
      if d.identifier = name then some d else ds.find? (·.identifier = name) := by
  induction ds with
  | nil => by_cases h : d.identifier = name <;> simp [insertSorted, h]
  | cons e es ih =>
    obtain ⟨he, hes⟩ := List.forall_mem_cons.mp hd
    unfold insertSorted
    split
    · by_cases h : d.identifier = name <;> simp [h]
    · by_cases h : e.identifier = name
      · subst h
        simp [Ne.symm he]
      · simp [h, ih hes]

theorem define_eq_ok (h : r.define d = .ok r') :
    (∃ i, Identifier.parse d.identifier = .ok i) ∧ r.find? d.identifier = none ∧
      r'.descriptors = insertSorted d r.descriptors := by
  unfold define at h
  split at h
  · cases h
  · next i hi =>
    split at h <;> cases h
    next hnone => exact ⟨⟨i, hi⟩, hnone, rfl⟩

/-- An option can be defined if its identifier can be read and is free. -/
theorem exists_define_iff : (∃ r', r.define d = .ok r') ↔
    (∃ i, Identifier.parse d.identifier = .ok i) ∧ r.find? d.identifier = none := by
  constructor
  · rintro ⟨r', h⟩
    exact ⟨(define_eq_ok h).1, (define_eq_ok h).2.1⟩
  · rintro ⟨⟨i, hi⟩, hnone⟩
    unfold define
    rw [hi]
    simp only
    split
    · next hsome =>
      rw [hnone] at hsome
      cases hsome
    · exact ⟨_, rfl⟩

theorem find?_define (h : r.define d = .ok r') (name : String) :
    r'.find? name = if d.identifier = name then some d else r.find? name := by
  obtain ⟨-, hnone, hdescriptors⟩ := define_eq_ok h
  rw [find?, hdescriptors]
  exact find?_insertSorted (fun e he => by simpa using List.find?_eq_none.mp hnone e he) name

/-! ### Registries that know more -/

theorem le_rfl : r ≤ r := fun _ _ h => h

theorem le_trans {r₁ r₂ r₃ : Registry} (h₁ : r₁ ≤ r₂) (h₂ : r₂ ≤ r₃) : r₁ ≤ r₃ :=
  fun name d h => h₂ name d (h₁ name d h)

theorem define_le (h : r.define d = .ok r') : r ≤ r' := by
  intro name e he
  have hne : d.identifier ≠ name := by
    rintro rfl
    rw [(define_eq_ok h).2.1] at he
    cases he
  rw [find?_define h, if_neg hne, he]

/-! ### Several calls -/

theorem le_afterCall (r : Registry) (d : Descriptor) : r ≤ r.afterCall d := by
  unfold afterCall
  split
  · next h => exact define_le h
  · exact le_rfl

/-- What is defined stays. -/
theorem le_afterCalls (r : Registry) (ds : List Descriptor) : r ≤ r.afterCalls ds := by
  induction ds generalizing r with
  | nil => exact le_rfl
  | cons d ds ih => exact le_trans (r.le_afterCall d) (ih (r.afterCall d))

theorem find?_afterCall_eq_none_iff : (r.afterCall d).find? name = none ↔
    r.find? name = none ∧ ¬∃ r', d.identifier = name ∧ r.define d = .ok r' := by
  unfold afterCall
  split
  · next r' h =>
    rw [find?_define h]
    by_cases hd : d.identifier = name <;> simp [hd, h]
  · next h => simp [h]

/-- An identifier is free behind some calls if it was free before and none of them defines it. -/
theorem find?_afterCalls_eq_none_iff :
    (r.afterCalls ds).find? name = none ↔ r.find? name = none ∧ ¬Defines name r ds := by
  induction ds generalizing r with
  | nil => exact (and_iff_left nofun).symm
  | cons d ds ih =>
    have hdefines : Defines name r (d :: ds) ↔
        (∃ r', d.identifier = name ∧ r.define d = .ok r') ∨ Defines name (r.afterCall d) ds := by
      constructor
      · intro H
        cases H with
        | head hd h => exact .inl ⟨_, hd, h⟩
        | tail H => exact .inr H
      · rintro (⟨r', hd, h⟩ | H)
        · exact .head hd h
        · exact .tail H
    calc (r.afterCalls (d :: ds)).find? name = none
      _ ↔ (r.afterCall d).find? name = none ∧ ¬Defines name (r.afterCall d) ds := ih
      _ ↔ r.find? name = none ∧ ¬Defines name r (d :: ds) := by
        rw [find?_afterCall_eq_none_iff, hdefines, not_or, and_assoc]

end Markers.Registry
