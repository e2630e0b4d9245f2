import Markers.Proofs.Literal.Number

/-!
# The extent of quoted texts

A quoted text that reads well ends at the first quote that no backslash escapes
(`splitQuoted_append_quote`), so the search for that quote and the reading of the escapes agree on
where the text ends.
-/

namespace Markers

namespace Quoted

theorem head_of_ofChars {text s : List Char} (h : ofChars text = .ok s) :
    ∃ cs, text = '"' :: cs := by
  unfold ofChars at h
  split at h
  · exact ⟨_, rfl⟩
  · cases h

theorem unescape_backslash {cs rest : List Char} {c : Char} (h : escape cs = .ok (c, rest)) :
    unescape ('\\' :: cs) = (unescape rest).map (c :: ·) := by
  rw [unescape, if_neg (by decide), if_neg (by decide), if_pos rfl]
  split
  · next herror =>
    rw [h] at herror
    cases herror
  · next hok =>
    rw [h] at hok
    cases hok
    rfl

theorem unescape_plain {c : Char} (h1 : c ≠ '"') (h2 : c ≠ '\n') (h3 : c ≠ '\\') (cs : List Char) :
    unescape (c :: cs) = (unescape cs).map (c :: ·) := by
  rw [unescape, if_neg h1, if_neg h2, if_neg h3]

theorem isAlphanum_of_digits {base : Nat} {cs : List Char} {ds : List Nat}
    (h : cs.mapM (digit? base) = some ds) : ∀ c ∈ cs, c.isAlphanum = true := by
  induction cs generalizing ds with
  | nil => simp
  | cons c cs ih =>
    simp only [List.mapM_cons, Option.bind_eq_bind, Option.bind_eq_some_iff] at h
    obtain ⟨d, hd, ds, hds, -⟩ := h
    exact List.forall_mem_cons.mpr ⟨isAlphanum_of_digit? hd, ih hds⟩

/-- The digits of an escape are letters and digits in front of what follows. -/
theorem append_of_code? {base count code : Nat} {cs rest : List Char}
    (h : code? base count cs = some (code, rest)) :
    ∃ ds, cs = ds ++ rest ∧ ∀ c ∈ ds, c.isAlphanum = true := by
  simp only [code?, Option.ite_none_left_eq_some, Option.map_eq_some_iff, Prod.mk.injEq] at h
  obtain ⟨-, ns, hns, -, rfl⟩ := h
  exact ⟨cs.take count, (List.take_append_drop ..).symm, isAlphanum_of_digits hns⟩

theorem append_of_hexEscape {count : Nat} {cs rest : List Char} {d : Char}
    (h : hexEscape count cs = .ok (d, rest)) :
    ∃ ds, cs = ds ++ rest ∧ ∀ c ∈ ds, c.isAlphanum = true := by
  unfold hexEscape at h
  split at h
  · cases h
  · next hcode =>
    split at h <;> cases h
    exact append_of_code? hcode

theorem append_of_octalEscape {cs rest : List Char} {d : Char}
    (h : octalEscape cs = .ok (d, rest)) :
    ∃ ds, cs = ds ++ rest ∧ ∀ c ∈ ds, c.isAlphanum = true := by
  unfold octalEscape at h
  split at h
  · cases h
  · next hcode =>
    split at h <;> cases h
    exact append_of_code? hcode

/-- An escape is one character that is no line feed, and behind it letters and digits only. -/
theorem append_of_escape {cs rest : List Char} {d : Char} (h : escape cs = .ok (d, rest)) :
    ∃ c ds, cs = c :: (ds ++ rest) ∧ c ≠ '\n' ∧ ∀ a ∈ ds, a.isAlphanum = true := by
  cases cs with
  | nil => cases h
  | cons c cs =>
    have hc : c ≠ '\n' := by rintro rfl; cases h
    simp only [escape] at h
    split at h
    · cases h
      exact ⟨c, [], rfl, hc, by simp⟩
    · split at h
      · obtain ⟨ds, rfl, hds⟩ := append_of_hexEscape h
        exact ⟨c, ds, rfl, hc, hds⟩
      · split at h
        · obtain ⟨ds, rfl, hds⟩ := append_of_hexEscape h
          exact ⟨c, ds, rfl, hc, hds⟩
        · split at h
          · obtain ⟨ds, rfl, hds⟩ := append_of_hexEscape h
            exact ⟨c, ds, rfl, hc, hds⟩
          · split at h
            · -- the first octal digit is the character behind the backslash
              obtain ⟨ds, heq, hds⟩ := append_of_octalEscape h
              cases ds with
              | nil =>
                have := length_octalEscape h
                rw [heq] at this
                simp at this
              | cons a ds =>
                cases heq
                exact ⟨c, ds, rfl, hc, (List.forall_mem_cons.mp hds).2⟩
            · cases h

end Quoted

namespace Lexeme

theorem splitQuoted_escaped {c : Char} (h : c ≠ '\n') (cs : List Char) :
    splitQuoted ('\\' :: c :: cs) =
      (splitQuoted cs).map fun (part, rest) => ('\\' :: c :: part, rest) := by
  simp [splitQuoted, h]

theorem splitQuoted_plain {c : Char} (h1 : c ≠ '\\') (h2 : c ≠ '\n') (h3 : c ≠ '"')
    (cs : List Char) :
    splitQuoted (c :: cs) = (splitQuoted cs).map fun (part, rest) => (c :: part, rest) := by
  rw [splitQuoted, if_neg h2, if_neg h3]
  exact fun _ _ hc _ => h1 hc

theorem splitQuoted_quote (cs : List Char) : splitQuoted ('"' :: cs) = some (['"'], cs) := by
  rw [splitQuoted, if_neg (by decide), if_pos rfl]
  exact fun _ _ hc _ => absurd hc (by decide)

theorem splitQuoted_alphanum {ds : List Char} (h : ∀ c ∈ ds, c.isAlphanum = true)
    (cs : List Char) :
    splitQuoted (ds ++ cs) = (splitQuoted cs).map fun (part, rest) => (ds ++ part, rest) := by
  induction ds with
  | nil => simp
  | cons d ds ih =>
    obtain ⟨hd, hds⟩ := List.forall_mem_cons.mp h
    have hplain := splitQuoted_plain (ne_of_class hd rfl) (ne_of_class hd rfl) (ne_of_class hd rfl)
    rw [List.cons_append, hplain, ih hds, Option.map_map]
    rfl

/-- What reads well between the quotes is what stands in front of the closing one. -/
theorem splitQuoted_append_quote {cs s : List Char} (h : Quoted.unescape cs = .ok s)
    (rest : List Char) : splitQuoted (cs ++ '"' :: rest) = some (cs ++ ['"'], rest) := by
  fun_induction Quoted.unescape cs generalizing s with
  | case1 => exact splitQuoted_quote rest
  | case2 | case3 | case4 => cases h
  | case5 cs d cs' hesc _ _ ih =>
    obtain ⟨t, ht, -⟩ := map_eq_ok_iff.mp h
    obtain ⟨c, ds, rfl, hc, hds⟩ := Quoted.append_of_escape hesc
    rw [List.cons_append, List.cons_append, List.append_assoc, splitQuoted_escaped hc,
      splitQuoted_alphanum hds, ih ht]
    simp
  | case6 c cs h1 h2 h3 ih =>
    obtain ⟨t, ht, -⟩ := map_eq_ok_iff.mp h
    rw [List.cons_append, splitQuoted_plain h3 h2 h1, ih ht]
    rfl

/-- A quoted text that reads well is cut off the front of whatever follows it. -/
theorem quoted_append {part s : List Char} (h : Quoted.ofChars part = .ok s) (rest : List Char) :
    quoted (part ++ rest) = .ok (part, rest) := by
  obtain ⟨cs, rfl⟩ := Quoted.head_of_ofChars h
  have hpart := h
  simp only [Quoted.ofChars] at h
  split at h
  · next hlast =>
    have heq : cs = cs.dropLast ++ ['"'] :=
      (List.dropLast_append_getLast? _ (by simpa using hlast)).symm
    have hsplit := splitQuoted_append_quote h rest
    rw [List.append_cons, ← heq] at hsplit
    simp [quoted, hsplit, hpart]
  · cases h

end Lexeme

end Markers
