import Mathlib.Data.List.Nodup
import Markers.Proofs.Registry

/-!
# Runs of definitions

What some calls have defined, call by call, is a log (`defined`), and everything that can be seen of
the registry behind them is read off the log (`Shows`). The one invariant is that the descriptors of
the registry are those of the log in another order: as they stand in the order of their identifiers,
which are distinct, the log gives them all, and the order of the calls leaves no trace.
-/

namespace Markers.Registry

/-- What the calls define, in their order. Refused calls define nothing. -/
def defined (r : Registry) : List Descriptor → List Descriptor
  | [] => []
  | d :: ds =>
    match r.define d with
    | .ok r' => d :: r'.defined ds
    | .error _ => r.defined ds

/-- What can be seen of a registry that holds the logged descriptors. -/
structure Shows (r : Registry) (log : List Descriptor) : Prop where
  /-- No two descriptors have one identifier. -/
  distinct : (log.map (·.identifier)).Nodup
  found : ∀ name d, r.find? name = some d ↔ d ∈ log ∧ d.identifier = name
  contains : ∀ name, r.contains name = true ↔ name ∈ log.map (·.identifier)
  size : r.size = log.length
  isEmpty : r.isEmpty = true ↔ log = []
  sorted : r.descriptors.Pairwise (·.identifier < ·.identifier)
  perm : r.descriptors.Perm log

variable {r r' : Registry} {d : Descriptor} {ds ds' log : List Descriptor} {name : String}

/-! ### The order of the descriptors -/

theorem nodup_identifiers (r : Registry) : (r.descriptors.map (·.identifier)).Nodup :=
  List.pairwise_map.mpr (r.sorted.imp Std.ne_of_lt)

/-- A set of descriptors has one order only. -/
theorem descriptors_eq_of_perm (h : r.descriptors.Perm r'.descriptors) :
    r.descriptors = r'.descriptors := by
  refine h.eq_of_pairwise (fun d e _ _ hde hed => ?_) r.sorted r'.sorted
  exact absurd hed (String.lt_asymm hde)

/-- What is found is the one descriptor with the identifier. -/
theorem find?_eq_some_iff :
    r.find? name = some d ↔ d ∈ r.descriptors ∧ d.identifier = name := by
  constructor
  · intro h
    exact ⟨List.mem_of_find?_eq_some h, by simpa using List.find?_some h⟩
  · rintro ⟨hd, rfl⟩
    cases he : r.find? d.identifier with
    | none =>
      have hne : d.identifier ≠ d.identifier := by simpa using List.find?_eq_none.mp he d hd
      exact absurd rfl hne
    | some e =>
      have hmem : e ∈ r.descriptors := List.mem_of_find?_eq_some he
      have hname : e.identifier = d.identifier := by simpa using List.find?_some he
      rw [List.inj_on_of_nodup_map r.nodup_identifiers hmem hd hname]

theorem contains_iff :
    r.contains name = true ↔ name ∈ r.descriptors.map (·.identifier) := by
  simp only [contains, Option.isSome_iff_exists, find?_eq_some_iff, List.mem_map]

/-! ### Refused calls -/

theorem define_invalid {e : Identifier.Error} (h : Identifier.parse d.identifier = .error e) :
    r.define d = .error (.invalid e) := by
  unfold define
  rw [h]

theorem define_duplicate {i : Identifier} (hi : Identifier.parse d.identifier = .ok i)
    (h : r.contains d.identifier = true) : r.define d = .error (.duplicate d.identifier) := by
  obtain ⟨e, he⟩ := Option.isSome_iff_exists.mp h
  unfold define
  rw [hi]
  simp only
  split
  · rfl
  · next hnone =>
    rw [he] at hnone
    cases hnone

theorem afterCall_of_error {e : Error} (h : r.define d = .error e) : r.afterCall d = r := by
  rw [afterCall, h]

/-! ### The log of some calls -/

/-- A descriptor that is defined is the last of the log. -/
theorem perm_define (H : r.descriptors.Perm log) (h : r.define d = .ok r') :
    r'.descriptors.Perm (log ++ [d]) := by
  obtain ⟨-, -, hdescriptors⟩ := define_eq_ok h
  rw [hdescriptors]
  have hcons : (d :: r.descriptors).Perm (log ++ [d]) :=
    (H.cons d).trans (List.perm_append_singleton d log).symm
  exact (insertSorted_perm d _).trans hcons

/-- Behind some calls the log is longer by what they define. -/
theorem perm_afterCalls (H : r.descriptors.Perm log) (ds : List Descriptor) :
    (r.afterCalls ds).descriptors.Perm (log ++ r.defined ds) := by
  induction ds generalizing r log with
  | nil =>
    rw [defined, List.append_nil]
    exact H
  | cons d ds ih =>
    rw [afterCalls, List.foldl_cons, defined, afterCall]
    cases h : r.define d with
    | error e => exact ih H
    | ok r' =>
      simp only
      rw [List.append_cons]
      exact ih (perm_define H h)

theorem perm_defined (ds : List Descriptor) :
    (empty.afterCalls ds).descriptors.Perm (empty.defined ds) :=
  perm_afterCalls (r := empty) (.refl empty.descriptors) ds

/-- Calls with identifiers that are free, each another one, define what has a well-formed one. -/
theorem defined_of_nodup (hds : (ds.map (·.identifier)).Nodup)
    (hfree : ∀ d ∈ ds, r.find? d.identifier = none) :
    r.defined ds = ds.filter (fun d => (Identifier.parse d.identifier).isOk) := by
  induction ds generalizing r with
  | nil => rfl
  | cons d ds ih =>
    obtain ⟨hd, hds⟩ := List.nodup_cons.mp hds
    obtain ⟨hfree_d, hfree⟩ := List.forall_mem_cons.mp hfree
    rw [defined]
    cases h : r.define d with
    | ok r' =>
      obtain ⟨⟨i, hi⟩, -⟩ := define_eq_ok h
      have hfree' : ∀ e ∈ ds, r'.find? e.identifier = none := by
        intro e he
        have hne : d.identifier ≠ e.identifier := by
          intro heq
          exact hd (List.mem_map.mpr ⟨e, he, heq.symm⟩)
        rw [find?_define h, if_neg hne]
        exact hfree e he
      simp only
      rw [ih hds hfree', List.filter_cons, hi]
      rfl
    | error e =>
      have hrefused : ¬∃ i, Identifier.parse d.identifier = .ok i := by
        intro hi
        obtain ⟨r', hr'⟩ := exists_define_iff.mpr ⟨hi, hfree_d⟩
        rw [h] at hr'
        cases hr'
      simp only
      rw [ih hds hfree, List.filter_cons]
      cases hi : Identifier.parse d.identifier with
      | ok i => exact absurd ⟨i, hi⟩ hrefused
      | error e => rfl

/-- Such calls define the same in every order. -/
theorem defined_perm (h : ds.Perm ds') (hds : (ds.map (·.identifier)).Nodup)
    (hfree : ∀ d ∈ ds, r.find? d.identifier = none) : (r.defined ds).Perm (r.defined ds') := by
  have hds' : (ds'.map (·.identifier)).Nodup := (h.map _).nodup_iff.mp hds
  have hfree' : ∀ d ∈ ds', r.find? d.identifier = none := fun d hd => hfree d (h.mem_iff.mpr hd)
  rw [defined_of_nodup hds hfree, defined_of_nodup hds' hfree']
  exact h.filter _

/-! ### What can be seen -/

theorem shows_of_perm (H : r.descriptors.Perm log) : r.Shows log where
  distinct := (H.map _).nodup_iff.mp r.nodup_identifiers
  found name d := by rw [find?_eq_some_iff, H.mem_iff]
  contains name := by rw [contains_iff, (H.map _).mem_iff]
  size := H.length_eq
  isEmpty := by
    rw [isEmpty, List.isEmpty_iff, ← List.length_eq_zero_iff, H.length_eq, List.length_eq_zero_iff]
  sorted := r.sorted
  perm := H

/-- Behind any calls, a further one is refused exactly if its identifier cannot be read, or is that of
a descriptor which one of the calls has defined; refused, it changes nothing. What can be seen of the
registry is what the calls have defined. And calls with distinct identifiers give the same
descriptors in every order. -/
theorem define_afterCalls (ds : List Descriptor) :
    let r := empty.afterCalls ds
    let log := empty.defined ds
    (∀ d : Descriptor,
      match Identifier.parse d.identifier with
      | .error e => r.define d = .error (.invalid e) ∧ r.afterCall d = r
      | .ok _ =>
        if d.identifier ∈ log.map (·.identifier) then
          r.define d = .error (.duplicate d.identifier) ∧ r.afterCall d = r
        else ∃ r', r.define d = .ok r') ∧
    r.Shows log ∧
    ∀ ds', ds.Perm ds' → (ds.map (·.identifier)).Nodup →
      (empty.afterCalls ds').descriptors = r.descriptors := by
  intro r log
  have H : r.Shows log := shows_of_perm (perm_defined ds)
  refine ⟨fun d => ?_, H, fun ds' hperm hds => ?_⟩
  · split
    · next e he => exact ⟨define_invalid he, afterCall_of_error (define_invalid he)⟩
    · next i hi =>
      split
      · next htaken =>
        have hrefused := define_duplicate hi ((H.contains d.identifier).mpr htaken)
        exact ⟨hrefused, afterCall_of_error hrefused⟩
      · next hfree =>
        rw [← H.contains] at hfree
        exact exists_define_iff.mpr ⟨⟨i, hi⟩, by simpa [contains] using hfree⟩
  · have hlog : log.Perm (empty.defined ds') := defined_perm hperm hds fun _ _ => rfl
    exact descriptors_eq_of_perm ((perm_defined ds').trans (hlog.symm.trans H.perm.symm))

theorem define_afterCalls_reordered :
    let a : Descriptor := { identifier := "a:b.c:d", destination := .bool }
    let b : Descriptor := { identifier := "a:b:d_1", destination := .string }
    let c : Descriptor := { identifier := "a:b", destination := .bool }
    [b, c, a].Perm [c, a, b] ∧ ([b, c, a].map (·.identifier)).Nodup ∧
      (empty.afterCalls [c, a, b]).descriptors = (empty.afterCalls [b, c, a]).descriptors ∧
      (empty.afterCalls [b, c, a]).descriptors.map (·.identifier) = ["a:b.c:d", "a:b:d_1"] := by
  intro a b c
  have hperm : ([b] ++ [c, a]).Perm ([c, a] ++ [b]) := List.perm_append_comm
  have hdistinct : ([b, c, a].map (·.identifier)).Nodup := by decide
  exact ⟨hperm, hdistinct, (define_afterCalls [b, c, a]).2.2 _ hperm hdistinct, by decide +kernel⟩

end Markers.Registry
