import Markers.Proofs.Literal.Quoted
import Markers.Proofs.Literal.Spelling

/-!
# The escapes of quoted texts

What may stand between the quotes is a sequence of items, each of which stands for one character:
the character itself, or a backslash and what names the character. A quoted text reads as a string
exactly if its items stand for the string's characters (`unquote_exact`).
-/

namespace Markers.Quoted

/-- The letters that name one character behind a backslash. -/
def letterEscapes : List (Char × Char) :=
  [('a', '\x07'), ('b', '\x08'), ('f', '\x0c'), ('n', '\n'), ('r', '\r'), ('t', '\t'),
    ('v', '\x0b'), ('\\', '\\'), ('"', '"')]

/-- One item between the quotes, and the character that it stands for. A code that is no scalar
value is the code of no character. -/
inductive Item : List Char → Char → Prop
  | plain (hquote : c ≠ '"') (hbackslash : c ≠ '\\') (hnewline : c ≠ '\n') : Item [c] c
  | letter (h : (c, d) ∈ letterEscapes) : Item ['\\', c] d
  | hex (hlen : cs.length = 2) (H : Spells 16 cs d.toNat) : Item ('\\' :: 'x' :: cs) d
  | octal (hlen : cs.length = 3) (H : Spells 8 cs d.toNat) (hmax : d.toNat ≤ 255) :
    Item ('\\' :: cs) d
  | unicode (hlen : cs.length = 4) (H : Spells 16 cs d.toNat) : Item ('\\' :: 'u' :: cs) d
  | longUnicode (hlen : cs.length = 8) (H : Spells 16 cs d.toNat) : Item ('\\' :: 'U' :: cs) d

/-- Items between the quotes, and the characters that they stand for. -/
inductive Body : List Char → List Char → Prop
  | nil : Body [] []
  | cons (h : Item part d) (H : Body cs s) : Body (part ++ cs) (d :: s)

variable {base count code : Nat} {c d : Char} {cs rest part s : List Char}

/-! ### Codes -/

theorem scalarValue?_eq_some_iff : scalarValue? code = some d ↔ d.toNat = code := by
  constructor
  · intro h
    simp only [scalarValue?, Option.ite_none_right_eq_some, Option.some.injEq] at h
    obtain ⟨hvalid, rfl⟩ := h
    rw [Char.ofNat, dif_pos hvalid]
    rfl
  · rintro rfl
    exact scalarValue?_toNat d

/-- A code is digits of the right number in front of the rest. -/
theorem code?_eq_some_iff (hbase : base ≤ 16) :
    code? base count cs = some (code, rest) ↔
      ∃ part, cs = part ++ rest ∧ part.length = count ∧ Spells base part code := by
  simp only [code?, Option.ite_none_left_eq_some, Option.map_eq_some_iff, Prod.mk.injEq,
    spells_iff hbase]
  constructor
  · rintro ⟨hle, ds, hds, hcode, rfl⟩
    refine ⟨cs.take count, (List.take_append_drop ..).symm, ?_, ds, hds, hcode⟩
    exact List.length_take_of_le (by omega)
  · rintro ⟨part, rfl, hlen, ds, hds, hcode⟩
    refine ⟨by simp [hlen], ds, ?_, hcode, List.drop_left' hlen⟩
    rwa [List.take_left' hlen]

/-- Codes of up to eight digits are numbers of 32 bits. -/
theorem code?_lt (hbase : base ≤ 16) (hcount : count ≤ 8)
    (h : code? base count cs = some (code, rest)) : code < 2 ^ 32 := by
  obtain ⟨part, -, hlen, hspells⟩ := (code?_eq_some_iff hbase).mp h
  calc code
    _ < 16 ^ part.length := hspells.lt hbase
    _ ≤ 16 ^ 8 := Nat.pow_le_pow_right (by decide) (hlen ▸ hcount)
    _ = 2 ^ 32 := by decide

theorem hexEscape_eq_ok_iff :
    hexEscape count cs = .ok (d, rest) ↔
      ∃ part, cs = part ++ rest ∧ part.length = count ∧ Spells 16 part d.toNat := by
  rw [← code?_eq_some_iff (by decide)]
  unfold hexEscape
  constructor
  · intro h
    split at h
    · cases h
    · next code rest hcode =>
      split at h <;> cases h
      next hscalar => rw [hcode, scalarValue?_eq_some_iff.mp hscalar]
  · intro h
    simp only [h, scalarValue?_toNat]

theorem octalEscape_eq_ok_iff :
    octalEscape cs = .ok (d, rest) ↔
      ∃ part, cs = part ++ rest ∧ part.length = 3 ∧ Spells 8 part d.toNat ∧ d.toNat ≤ 255 := by
  unfold octalEscape
  constructor
  · intro h
    split at h
    · cases h
    · next code rest hcode =>
      split at h <;> cases h
      next hmax =>
      obtain ⟨part, hcs, hlen, hspells⟩ := (code?_eq_some_iff (by decide)).mp hcode
      have hd : (Char.ofNat code).toNat = code := by
        apply scalarValue?_eq_some_iff.mp
        rw [scalarValue?, if_pos (.inl (by omega))]
      rw [hd]
      exact ⟨part, hcs, hlen, hspells, hmax⟩
  · rintro ⟨part, hcs, hlen, hspells, hmax⟩
    have hcode := (code?_eq_some_iff (by decide)).mpr ⟨part, hcs, hlen, hspells⟩
    simp only [hcode, if_pos hmax, Char.ofNat_toNat]

/-! ### Items -/

theorem letterEscape?_eq_some_iff : letterEscape? c = some d ↔ (c, d) ∈ letterEscapes := by
  constructor
  · intro h
    unfold letterEscape? at h
    split at h <;> cases h <;> decide
  · intro h
    have hall : ∀ p ∈ letterEscapes, letterEscape? p.1 = some p.2 := by decide
    exact hall (c, d) h

/-- Behind a backslash stands the rest of an item. -/
theorem item_of_escape (h : escape cs = .ok (d, rest)) :
    ∃ part, cs = part ++ rest ∧ Item ('\\' :: part) d := by
  cases cs with
  | nil => cases h
  | cons c cs =>
    simp only [escape] at h
    split at h
    · next hletter =>
      cases h
      exact ⟨[c], rfl, .letter (letterEscape?_eq_some_iff.mp hletter)⟩
    · split at h
      · next hc =>
        obtain ⟨part, rfl, hlen, hspells⟩ := hexEscape_eq_ok_iff.mp h
        exact ⟨c :: part, rfl, hc ▸ .hex hlen hspells⟩
      · split at h
        · next hc =>
          obtain ⟨part, rfl, hlen, hspells⟩ := hexEscape_eq_ok_iff.mp h
          exact ⟨c :: part, rfl, hc ▸ .unicode hlen hspells⟩
        · split at h
          · next hc =>
            obtain ⟨part, rfl, hlen, hspells⟩ := hexEscape_eq_ok_iff.mp h
            exact ⟨c :: part, rfl, hc ▸ .longUnicode hlen hspells⟩
          · split at h
            · obtain ⟨part, hcs, hlen, hspells, hmax⟩ := octalEscape_eq_ok_iff.mp h
              exact ⟨part, hcs, .octal hlen hspells hmax⟩
            · cases h

/-- An octal digit starts no other escape. -/
theorem escape_of_digit (hc : Integer.IsDigit 8 c n) (cs : List Char) :
    escape (c :: cs) = octalEscape (c :: cs) := by
  have hdigit : digit? 8 c = some n := (Integer.digit?_eq_some_iff (by decide)).mpr hc
  have hletter : letterEscape? c = none := by
    unfold letterEscape?
    split <;> first | rfl | cases hdigit
  have hne {a : Char} (ha : digit? 8 a = none) : c ≠ a := by
    rintro rfl
    rw [ha] at hdigit
    cases hdigit
  simp only [escape, hletter]
  rw [if_neg (hne rfl), if_neg (hne rfl), if_neg (hne rfl), if_pos (by rw [hdigit]; rfl)]

theorem escape_of_item (h : Item ('\\' :: part) d) (rest : List Char) :
    escape (part ++ rest) = .ok (d, rest) := by
  cases h with
  | plain _ hbackslash => exact absurd rfl hbackslash
  | letter h => simp only [escape, List.cons_append, letterEscape?_eq_some_iff.mpr h]; rfl
  | hex hlen H => exact hexEscape_eq_ok_iff.mpr ⟨_, rfl, hlen, H⟩
  | unicode hlen H => exact hexEscape_eq_ok_iff.mpr ⟨_, rfl, hlen, H⟩
  | longUnicode hlen H => exact hexEscape_eq_ok_iff.mpr ⟨_, rfl, hlen, H⟩
  | octal hlen H hmax =>
    have hoctal : octalEscape (part ++ rest) = .ok (d, rest) :=
      octalEscape_eq_ok_iff.mpr ⟨part, rfl, hlen, H, hmax⟩
    obtain ⟨ds, hds, -⟩ := H
    cases hds with
    | nil => cases hlen
    | cons hc => rwa [List.cons_append, escape_of_digit hc, ← List.cons_append]

/-! ### The text between the quotes -/

/-- An item is read in front of whatever follows it. -/
theorem unescape_item (h : Item part d) (rest : List Char) :
    unescape (part ++ rest) = (unescape rest).map (d :: ·) := by
  by_cases hpart : ∃ cs, part = '\\' :: cs
  · obtain ⟨cs, rfl⟩ := hpart
    exact unescape_backslash (escape_of_item h rest)
  · cases h with
    | plain hquote hbackslash hnewline => exact unescape_plain hquote hnewline hbackslash rest
    | _ => exact absurd ⟨_, rfl⟩ hpart

theorem unescape_body (h : Body cs s) (rest : List Char) :
    unescape (cs ++ rest) = (unescape rest).map (s ++ ·) := by
  induction h with
  | nil =>
    rw [List.nil_append]
    cases unescape rest <;> rfl
  | cons h _ ih =>
    rw [List.append_assoc, unescape_item h, ih]
    cases unescape rest <;> rfl

theorem body_of_unescape (h : unescape cs = .ok s) : Body cs s := by
  fun_induction unescape cs generalizing s with
  | case1 =>
    cases h
    exact .nil
  | case2 | case3 | case4 => cases h
  | case5 cs d rest hescape _ _ ih =>
    obtain ⟨t, ht, rfl⟩ := map_eq_ok_iff.mp h
    obtain ⟨part, rfl, hitem⟩ := item_of_escape hescape
    exact .cons hitem (ih ht)
  | case6 c cs hquote hnewline hbackslash ih =>
    obtain ⟨t, ht, rfl⟩ := map_eq_ok_iff.mp h
    exact .cons (.plain hquote hbackslash hnewline) (ih ht)

theorem unescape_eq_ok_iff : unescape cs = .ok s ↔ Body cs s := by
  refine ⟨body_of_unescape, fun h => ?_⟩
  have hbody := unescape_body h []
  rw [List.append_nil, unescape] at hbody
  rw [hbody]
  exact congrArg Except.ok (List.append_nil s)

theorem ofChars_eq_ok_iff :
    ofChars cs = .ok s ↔ ∃ body, cs = '"' :: (body ++ ['"']) ∧ Body body s := by
  constructor
  · intro h
    obtain ⟨cs, rfl⟩ := head_of_ofChars h
    simp only [ofChars] at h
    split at h
    · next hlast =>
      have heq : cs = cs.dropLast ++ ['"'] :=
        (List.dropLast_append_getLast? _ (by simpa using hlast)).symm
      exact ⟨cs.dropLast, by rw [← heq], unescape_eq_ok_iff.mp h⟩
    · cases h
  · rintro ⟨body, rfl, hbody⟩
    simp only [ofChars]
    rw [if_pos List.getLast?_concat, List.dropLast_concat]
    exact unescape_eq_ok_iff.mpr hbody

/-- A backslash in front of the last quote takes the quote, so that none closes the text. -/
theorem ofChars_escaped_quote (h : Body cs s) :
    ofChars ('"' :: (cs ++ ['\\', '"'])) = .error .loneBackslash := by
  have hlone : unescape ['\\'] = .error .loneBackslash := by
    rw [unescape, if_neg (by decide), if_neg (by decide), if_pos rfl]
    rfl
  have hconcat : cs ++ ['\\', '"'] = (cs ++ ['\\']) ++ ['"'] := by simp
  simp only [ofChars, hconcat]
  rw [if_pos List.getLast?_concat, List.dropLast_concat, unescape_body h, hlone]
  rfl

/-- A text is unquoted exactly if it is items between two quotes, and what they stand for is the
string. No code of an escape exceeds 32 bits on the way, and a last quote that a backslash takes
closes nothing. -/
theorem unquote_exact (raw s : String) :
    (unquote raw = .ok s ↔ ∃ body, raw.toList = '"' :: (body ++ ['"']) ∧ Body body s.toList) ∧
      (∀ base count code cs rest, base ≤ 16 → count ≤ 8 →
        code? base count cs = some (code, rest) → code < 2 ^ 32) ∧
      ∀ body t, Body body t →
        unquote (String.ofList ('"' :: (body ++ ['\\', '"']))) = .error .loneBackslash := by
  refine ⟨?_, fun _ _ _ _ _ => code?_lt, fun body t h => ?_⟩
  · rw [← ofChars_eq_ok_iff, unquote, map_eq_ok_iff]
    constructor
    · rintro ⟨t, ht, rfl⟩
      rwa [String.toList_ofList]
    · intro h
      exact ⟨s.toList, h, String.ofList_toList⟩
  · rw [unquote, String.toList_ofList, ofChars_escaped_quote h]
    rfl

/-- Three escapes, the greatest code of eight digits, and a backslash that takes the last quote. -/
theorem unquote_exact_escapes :
    unquote "\"\\x41\\101\\n\"" = .ok "AA\n" ∧
      (code? 16 8 "ffffffff".toList = some (4294967295, []) ∧ 4294967295 < 2 ^ 32) ∧
      Body ['a'] ['a'] ∧ unquote (String.ofList ['"', 'a', '\\', '"']) = .error .loneBackslash := by
  have hhex : Item ['\\', 'x', '4', '1'] 'A' :=
    .hex rfl ((spells_iff (by decide)).mpr ⟨_, rfl, rfl⟩)
  have hoctal : Item ['\\', '1', '0', '1'] 'A' :=
    .octal rfl ((spells_iff (by decide)).mpr ⟨_, rfl, rfl⟩) (by decide)
  have hletter : Item ['\\', 'n'] '\n' := .letter (by decide)
  have hplain : Body ['a'] ['a'] := .cons (.plain (by decide) (by decide) (by decide)) .nil
  have hcode : code? 16 8 "ffffffff".toList = some (4294967295, []) := rfl
  obtain ⟨hread, hbound, hclose⟩ := unquote_exact "\"\\x41\\101\\n\"" "AA\n"
  have hbody := Body.cons hhex (.cons hoctal (.cons hletter .nil))
  refine ⟨hread.mpr ⟨_, rfl, hbody⟩, ⟨hcode, ?_⟩, hplain, ?_⟩
  · exact hbound 16 8 _ _ _ (by decide) (by decide) hcode
  · exact hclose _ _ hplain

end Markers.Quoted
