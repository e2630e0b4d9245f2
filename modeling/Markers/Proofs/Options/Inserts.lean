import Markers.Proofs.Options

/-!
# Runs of inserts

A call inserts a value, or it is refused and leaves the options as they are. What the calls have
inserted, call by call, is a log (`inserted`), and behind a run of calls everything that can be seen
of the options is read off the log (`Shows`). Every call that is not refused takes the options from
one log to the next (`Records.concat`), so the entries and the index never part.
-/

namespace Markers.Options

variable {o o' : Options} {d : Descriptor} {v : Value} {name : String}

/-- The identifiers with their values, in the order of their first occurrence. -/
def toList (o : Options) : List (String × List Value) :=
  o.entries.map fun e => (e.identifier, e.values)

/-! ### Calls and their log -/

/-- The options behind a call that inserts a value. A refused call leaves them as they are. -/
def afterInsert (o : Options) (call : Descriptor × Value) : Options :=
  match o.insert call.1 call.2 with
  | .ok o' => o'
  | .error _ => o

def afterInserts (o : Options) (calls : List (Descriptor × Value)) : Options :=
  calls.foldl afterInsert o

/-- What the calls insert, each value under its identifier. Refused calls insert nothing. -/
def inserted (o : Options) : List (Descriptor × Value) → List (String × Value)
  | [] => []
  | (d, v) :: calls =>
    match o.insert d v with
    | .ok o' => (d.identifier, v) :: o'.inserted calls
    | .error _ => o.inserted calls

/-- The logged values of an identifier. -/
def valuesOf (log : List (String × Value)) (name : String) : List Value :=
  (log.filter (·.1 = name)).map (·.2)

/-- The options hold the logged values, by identifier. -/
structure Records (o : Options) (log : List (String × Value)) : Prop where
  identifiers : o.identifiers = (log.map (·.1)).eraseDups
  values : ∀ name, (o.values? name).getD [] = valuesOf log name

/-- What can be seen of options that hold the logged values. -/
structure Shows (o : Options) (log : List (String × Value)) : Prop where
  toList : o.toList = (log.map (·.1)).eraseDups.map fun name => (name, valuesOf log name)
  values : ∀ name, o.values? name =
    if name ∈ log.map (·.1) then some (valuesOf log name) else none
  values_ne_nil : ∀ name, valuesOf log name ≠ [] ↔ name ∈ log.map (·.1)
  contains : ∀ name, o.contains name = true ↔ name ∈ log.map (·.1)
  first : ∀ name, o.first? name = (valuesOf log name).head?
  firstOrDefault : ∀ d : Descriptor,
    o.firstOrDefault? d = (valuesOf log d.identifier).head?.or d.default
  size : o.size = (log.map (·.1)).eraseDups.length
  isEmpty : o.isEmpty = true ↔ log = []

/-! ### One call -/

theorem adds_of_insert (h : o.insert d v = .ok o') : o.Adds d.identifier v o' := by
  have hfree : ¬(d.unique = true ∧ o.contains d.identifier = true) := by
    intro hrepeated
    rw [insert_repeated hrepeated.1 hrepeated.2] at h
    cases h
  obtain ⟨o'', ho'', hadds⟩ := insert_adds (v := v) hfree
  rw [h] at ho''
  cases ho''
  exact hadds

theorem valuesOf_concat (log : List (String × Value)) (name' : String) :
    valuesOf (log ++ [(name, v)]) name' =
      if name' = name then valuesOf log name ++ [v] else valuesOf log name' := by
  rw [valuesOf, List.filter_append, List.map_append]
  split
  · next h => simp [valuesOf, h]
  · next h => simp [valuesOf, Ne.symm h]

namespace Records

variable {log : List (String × Value)}

theorem nil : empty.Records [] := ⟨rfl, fun _ => rfl⟩

/-- An inserted value is the last of the log. -/
theorem concat (H : o.Records log) (hadds : o.Adds name v o') :
    o'.Records (log ++ [(name, v)]) := by
  refine ⟨?_, fun name' => ?_⟩
  · rw [List.map_append, List.map_singleton]
    exact hadds.identifiers_concat H.identifiers
  · rw [hadds.values, valuesOf_concat]
    split
    · rw [Option.getD_some, H.values]
    · exact H.values name'

/-- Behind some calls the log is longer by what they inserted. -/
theorem afterInserts (H : o.Records log) (calls : List (Descriptor × Value)) :
    (o.afterInserts calls).Records (log ++ o.inserted calls) := by
  induction calls generalizing o log with
  | nil =>
    rw [inserted, List.append_nil]
    exact H
  | cons call calls ih =>
    obtain ⟨d, v⟩ := call
    rw [Options.afterInserts, List.foldl_cons, inserted, afterInsert]
    cases h : o.insert d v with
    | error e => exact ih H
    | ok o' =>
      simp only
      rw [List.append_cons]
      exact ih (H.concat (adds_of_insert h))

end Records

/-! ### What can be seen -/

theorem values?_of_mem {e : OptionEntry} (he : e ∈ o.entries) :
    o.values? e.identifier = some e.values := by
  obtain ⟨i, hi⟩ := List.mem_iff_getElem?.mp he
  have hlookup : o.index.lookup e.identifier = some i := by
    apply (o.aligned e.identifier i).mpr
    rw [hi, Option.map_some]
  exact values?_of_lookup hlookup hi

theorem values?_eq (o : Options) (name : String) :
    o.values? name = if name ∈ o.identifiers then some ((o.values? name).getD []) else none := by
  cases h : o.index.lookup name with
  | none => rw [values?_of_lookup_none h, if_neg (lookup_eq_none_iff.mp h)]
  | some i =>
    have hmem : name ∈ o.identifiers := by
      rw [← contains_iff, contains, h, Option.isSome_some]
    obtain ⟨e, he, -⟩ := entry_of_lookup h
    rw [values?_of_lookup h he, if_pos hmem, Option.getD_some]

theorem first?_eq (o : Options) (name : String) :
    o.first? name = ((o.values? name).getD []).head? := by
  rw [first?, values?]
  cases o.find? name <;> rfl

theorem toList_eq (o : Options) :
    o.toList = o.identifiers.map fun name => (name, (o.values? name).getD []) := by
  rw [toList, identifiers, List.map_map]
  apply List.map_congr_left
  intro e he
  rw [Function.comp_apply, values?_of_mem he, Option.getD_some]

theorem isEmpty_iff : o.isEmpty = true ↔ o.identifiers = [] := by
  rw [isEmpty, List.isEmpty_iff, identifiers, List.map_eq_nil_iff]

theorem valuesOf_ne_nil_iff (log : List (String × Value)) (name : String) :
    valuesOf log name ≠ [] ↔ name ∈ log.map (·.1) := by
  simp [valuesOf, List.filter_eq_nil_iff]

theorem eraseDups_eq_nil_iff {names : List String} : names.eraseDups = [] ↔ names = [] := by
  cases names with
  | nil => rfl
  | cons name names => simp [List.eraseDups_cons]

theorem Records.shows {log : List (String × Value)} (H : o.Records log) : o.Shows log where
  toList := by
    rw [toList_eq, H.identifiers]
    simp only [H.values]
  values name := by
    rw [values?_eq, H.values, H.identifiers]
    simp only [List.mem_eraseDups]
  values_ne_nil := valuesOf_ne_nil_iff log
  contains name := by rw [contains_iff, H.identifiers, List.mem_eraseDups]
  first name := by rw [first?_eq, H.values]
  firstOrDefault d := by rw [firstOrDefault?, first?_eq, H.values]
  size := by rw [← H.identifiers, Options.identifiers, List.length_map, Options.size]
  isEmpty := by rw [isEmpty_iff, H.identifiers, eraseDups_eq_nil_iff, List.map_eq_nil_iff]

/-- Behind any calls, a further one is refused exactly if its descriptor is unique and one of the
calls inserted a value under its identifier; refused, it changes nothing. And what can be seen of
the options is what the calls inserted. -/
theorem insert_afterInserts (calls : List (Descriptor × Value)) :
    let o := empty.afterInserts calls
    let log := empty.inserted calls
    (∀ (d : Descriptor) (v : Value),
      if d.unique = true ∧ d.identifier ∈ log.map (·.1) then
        o.insert d v = .error (.repeated d.identifier) ∧ o.afterInsert (d, v) = o
      else ∃ o', o.insert d v = .ok o') ∧
    o.Shows log := by
  intro o log
  have H : o.Records log := Records.nil.afterInserts calls
  refine ⟨fun d v => ?_, H.shows⟩
  split
  · next hrepeated =>
    have hinsert : o.insert d v = .error (.repeated d.identifier) :=
      insert_repeated hrepeated.1 ((H.shows.contains d.identifier).mpr hrepeated.2)
    exact ⟨hinsert, by rw [afterInsert, hinsert]⟩
  · next hfree =>
    rw [← H.shows.contains] at hfree
    obtain ⟨o', ho', -⟩ := insert_adds (v := v) hfree
    exact ⟨o', ho'⟩

end Markers.Options
