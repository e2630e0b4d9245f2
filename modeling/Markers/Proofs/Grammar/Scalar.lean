import Markers.Marker
import Markers.Proofs.Grammar
import Markers.Proofs.Literal.Quoted

/-!
# Scalars as tokens

The scalar lexemes are the scalars of the grammar. A lexeme that is cut off a text is a scalar, and
its token denotes the scalar's literal (`scalar_sound`). A scalar is cut off the front of a text
wherever neither a word nor a number could go on behind it (`scalar_complete`).
-/

namespace Markers

/-- The kind of literal that a token stands for, if it stands for one. -/
def Token.Kind.literal? : Token.Kind → Option Literal.Kind
  | .string => some .string
  | .bool => some .bool
  | .int => some .int
  | .float => some .float
  | .complex => some .complex
  | _ => none

/-- The token announces the literal that it reads as. -/
structure Token.Announces (t : Token) (x : Literal) : Prop where
  literal : t.literal = .ok x
  kind : t.kind.literal? = some x.kind

theorem Lexeme.literal?_numberKind (n : Number) :
    (numberKind n).literal? = some n.toLiteral.kind := by
  cases n <;> rfl

/-- Neither a word nor a number goes on here. -/
def Lexeme.Closed (rest : List Char) : Prop :=
  ∀ c ∈ rest.head?, isWordChar c = false ∧ isNumberChar c = false

namespace Lexeme

/-- Does a scalar start with the character? -/
def startsScalar (c : Char) : Bool := c = '"' || c = 't' || c = 'f' || startsNumber c

/-- A text up to its next back-tick. -/
theorem splitRaw_sound {cs part rest : List Char} (h : splitRaw cs = some (part, rest)) :
    ∃ s, part = s ++ [backTick] ∧ backTick ∉ s := by
  fun_induction splitRaw cs generalizing part with
  | case1 => cases h
  | case2 =>
    cases h
    exact ⟨[], rfl, List.not_mem_nil⟩
  | case3 c cs hc ih =>
    obtain ⟨⟨p, r⟩, hp, heq⟩ := Option.map_eq_some_iff.mp h
    cases heq
    obtain ⟨s, rfl, hs⟩ := ih hp
    exact ⟨c :: s, rfl, by simp [Ne.symm hc, hs]⟩

theorem splitRaw_complete {s : List Char} (h : backTick ∉ s) (rest : List Char) :
    splitRaw (s ++ backTick :: rest) = some (s ++ [backTick], rest) := by
  induction s with
  | nil => simp [splitRaw]
  | cons c s ih =>
    obtain ⟨hc, hs⟩ := not_or.mp (mt List.mem_cons.mpr h)
    rw [List.cons_append, splitRaw, if_neg (Ne.symm hc), ih hs]
    rfl

theorem raw_sound {c : Char} {cs part rest : List Char} (h : raw (c :: cs) = .ok (part, rest)) :
    ∃ s, part = c :: (s ++ [backTick]) ∧ backTick ∉ s := by
  simp only [raw] at h
  split at h
  · cases h
  · next hsplit =>
    cases h
    obtain ⟨s, rfl, hs⟩ := splitRaw_sound hsplit
    exact ⟨s, rfl, hs⟩

theorem identifier_sound {cs part rest : List Char} (h : identifier cs = .ok (part, rest)) :
    ∃ i, Identifier.ofChars part = .ok i := by
  unfold identifier at h
  split at h
  · cases h
  · next i hi =>
    cases h
    exact ⟨i, hi⟩

end Lexeme

namespace Token

theorem literal_bool {b : Bool} {p : Position} :
    literal ⟨.bool, toString b, p⟩ = .ok (.bool b) := by
  have hf : toString false = "false" := rfl
  have ht : toString true = "true" := rfl
  cases b <;> simp [literal, hf, ht]

theorem literal_true {p : Position} : literal ⟨.bool, "true", p⟩ = .ok (.bool true) :=
  literal_bool (b := true)

theorem literal_quoted {part s : List Char} {p : Position} (h : Quoted.ofChars part = .ok s) :
    literal ⟨.string, String.ofList part, p⟩ = .ok (.string (String.ofList s)) := by
  obtain ⟨cs, rfl⟩ := Quoted.head_of_ofChars h
  simp [literal, Token.string, Quoted.unquote, h, Except.map]

theorem literal_number {part : List Char} {n : Number} {p : Position}
    (h : Number.ofChars part = .ok n) :
    literal ⟨Lexeme.numberKind n, String.ofList part, p⟩ = .ok n.toLiteral := by
  have hclassify : Number.classify (String.ofList part) = .ok n := by simp [Number.classify, h]
  cases n <;> simp [literal, Lexeme.numberKind, hclassify]

theorem literal_raw {s : List Char} {p : Position} :
    literal ⟨.string, String.ofList (Lexeme.backTick :: (s ++ [Lexeme.backTick])), p⟩ =
      .ok (.string (String.ofList s)) := by
  simp [literal, Token.string, Lexeme.backTick]

end Token

namespace Grammar

theorem scalar_sound {cs part rest : List Char} {k : Token.Kind} (p : Position)
    (h : Lexeme.scalar cs = .ok (k, part, rest)) :
    ∃ x, Scalar part x ∧ Token.Announces ⟨k, String.ofList part, p⟩ x := by
  unfold Lexeme.scalar at h
  split at h
  · obtain ⟨l, hq, heq⟩ := map_eq_ok_iff.mp h
    cases heq
    unfold Lexeme.quoted at hq
    split at hq
    · cases hq
    · split at hq
      · cases hq
      · split at hq
        · cases hq
        · next hs =>
          cases hq
          exact ⟨_, .string hs, Token.literal_quoted hs, rfl⟩
  · split at h
    · obtain ⟨l, hb, heq⟩ := map_eq_ok_iff.mp h
      cases heq
      simp only [Lexeme.bool] at hb
      split at hb
      · next hword =>
        cases hb
        have hbool : ∃ b : Bool, cs.takeWhile Lexeme.isWordChar = (toString b).toList := by
          rcases hword with heq | heq
          · exact ⟨true, heq⟩
          · exact ⟨false, heq⟩
        obtain ⟨b, hb⟩ := hbool
        rw [hb, String.ofList_toList]
        exact ⟨_, .bool b, Token.literal_bool, rfl⟩
      · cases hb
    · unfold Lexeme.number at h
      split at h <;> cases h
      next n hn =>
        exact ⟨_, .number hn, Token.literal_number hn, Lexeme.literal?_numberKind n⟩

/-- A scalar is told by its first character. -/
theorem Scalar.head (h : Scalar t x) : ∃ c cs, t = c :: cs ∧ Lexeme.startsScalar c = true := by
  cases h with
  | bool b => cases b <;> exact ⟨_, _, rfl, rfl⟩
  | string h =>
    obtain ⟨cs, rfl⟩ := Quoted.head_of_ofChars h
    exact ⟨_, _, rfl, rfl⟩
  | number h =>
    obtain ⟨c, cs, rfl, hc⟩ := (Number.numeric_of_ofChars h).head
    exact ⟨c, cs, rfl, by simp [Lexeme.startsScalar, hc]⟩

theorem Scalar.scalarStart? (h : Scalar t x) (rest : List Char) :
    Lexeme.scalarStart? (t ++ rest) = none := by
  obtain ⟨c, cs, rfl, hc⟩ := h.head
  simp only [Lexeme.startsScalar, Bool.or_eq_true, decide_eq_true_eq, or_assoc] at hc
  rw [List.cons_append, Lexeme.scalarStart?, if_pos hc]

theorem Scalar.elementStart? (h : Scalar t x) (rest : List Char) :
    Lexeme.elementStart? (t ++ rest) = none := by
  have hstart := h.scalarStart? rest
  obtain ⟨c, cs, rfl, hc⟩ := h.head
  have hblank : ¬(c = ' ' ∨ c = '\t') := not_or.mpr ⟨ne_of_class hc rfl, ne_of_class hc rfl⟩
  rw [List.cons_append] at hstart ⊢
  rw [Lexeme.elementStart?, if_neg hblank, if_neg (ne_of_class hc rfl),
    if_neg (ne_of_class hc rfl), if_neg (ne_of_class hc rfl), hstart]

theorem takeWhile_eq_nil_of_head? {p : Char → Bool} {rest : List Char}
    (h : ∀ c ∈ rest.head?, p c = false) : rest.takeWhile p = [] ∧ rest.dropWhile p = rest := by
  cases rest with
  | nil => simp
  | cons c cs => simp [h c rfl]

theorem scalar_complete {part rest : List Char} {x : Literal} (h : Scalar part x)
    (hrest : Lexeme.Closed rest) :
    ∃ k, Lexeme.scalar (part ++ rest) = .ok (k, part, rest) ∧
      ∀ p, Token.literal ⟨k, String.ofList part, p⟩ = .ok x := by
  obtain ⟨hword, hwordRest⟩ := takeWhile_eq_nil_of_head? fun c hc => (hrest c hc).1
  obtain ⟨hnumber, hnumberRest⟩ := takeWhile_eq_nil_of_head? fun c hc => (hrest c hc).2
  cases h with
  | bool b =>
    have hchars : ∀ c ∈ (toString b).toList, Lexeme.isWordChar c = true :=
      List.all_eq_true.mp (by cases b <;> rfl)
    have hwhole : (toString b).toList = "true".toList ∨ (toString b).toList = "false".toList := by
      cases b
      · exact .inr rfl
      · exact .inl rfl
    have hhead : ((toString b).toList ++ rest).head? = some 't' ∨
        ((toString b).toList ++ rest).head? = some 'f' := by
      cases b
      · exact .inr rfl
      · exact .inl rfl
    refine ⟨.bool, ?_, fun p => ?_⟩
    · have hquote : ((toString b).toList ++ rest).head? ≠ some '"' := by
        rcases hhead with h | h <;> simp [h]
      rw [Lexeme.scalar, if_neg hquote, if_pos hhead]
      simp only [Lexeme.bool, List.takeWhile_append_of_pos hchars,
        List.dropWhile_append_of_pos hchars, hword, hwordRest, List.append_nil, if_pos hwhole]
      rfl
    · rw [String.ofList_toList]
      exact Token.literal_bool
  | string h =>
    have hhead : (part ++ rest).head? = some '"' := by
      obtain ⟨cs, rfl⟩ := Quoted.head_of_ofChars h
      rfl
    refine ⟨.string, ?_, fun p => Token.literal_quoted h⟩
    rw [Lexeme.scalar, if_pos hhead, Lexeme.quoted_append h]
    rfl
  | number h =>
    obtain ⟨hhead, hchars⟩ := Number.numeric_of_ofChars h
    refine ⟨_, ?_, fun p => Token.literal_number h⟩
    obtain ⟨c, cs, rfl, hc⟩ := hhead
    rw [Lexeme.scalar, if_neg, if_neg, Lexeme.number]
    · simp only [List.takeWhile_append_of_pos hchars, List.dropWhile_append_of_pos hchars,
        hnumber, hnumberRest, List.append_nil, h]
    · rintro (heq | heq)
      · exact ne_of_class hc rfl (Option.some.inj heq)
      · exact ne_of_class hc rfl (Option.some.inj heq)
    · intro heq
      exact ne_of_class hc rfl (Option.some.inj heq)

end Grammar

end Markers
