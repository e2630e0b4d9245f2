import Markers.Proofs.Token.Stream

/-!
# Texts between back-ticks

A string token may be a text between back-ticks, which stands for itself. Such a text is a value of
its own, never an element of a list: among the tokens of a text it follows an assignment.
-/

namespace Markers

/-- Is the token a text between back-ticks? -/
def Token.isRaw (t : Token) : Bool :=
  t.kind = .string && t.text.toList.head? = some Lexeme.backTick

namespace Token

variable {a t : Token} {ts : List Token} {x : Literal}

theorem isRaw_of_kind (h : t.kind ≠ .string) : t.isRaw = false := by
  simp [isRaw, h]

/-- A text between back-ticks that reads as a string is that string with the back-ticks. -/
theorem raw_of_literal (hraw : t.isRaw = true) (h : t.literal = .ok x) :
    ∃ s, t = ⟨.string, String.ofList (Lexeme.backTick :: (s ++ [Lexeme.backTick])), t.position⟩ ∧
      x = .string (String.ofList s) := by
  obtain ⟨kind, text, p⟩ := t
  obtain ⟨hkind, hhead⟩ : kind = .string ∧ text.toList.head? = some Lexeme.backTick := by
    simpa [isRaw] using hraw
  obtain ⟨cs, htext⟩ := List.head?_eq_some_iff.mp hhead
  subst hkind
  simp only [literal] at h
  split at h
  · cases h
  · next hs =>
    cases h
    unfold Token.string at hs
    split at hs
    · next cs' htext' =>
      split at hs
      · next hlast =>
        cases hs
        obtain ⟨s, rfl⟩ := List.getLast?_eq_some_iff.mp hlast
        refine ⟨s, ?_, by simp⟩
        rw [show Lexeme.backTick :: (s ++ [Lexeme.backTick]) = text.toList from htext'.symm,
          String.ofList_toList]
      · obtain ⟨r, hr, -⟩ := map_eq_ok_iff.mp hs
        obtain ⟨cs'', hquote⟩ := Quoted.head_of_ofChars hr
        rw [htext] at hquote
        cases hquote
    · next hne => exact absurd htext (hne cs)

/-- A text between back-ticks stands where a value starts, behind an assignment. -/
def RawAssigned (ts : List Token) : Prop :=
  List.IsChain (fun a t => t.isRaw = true → a.kind = .assign) ts

theorem rawAssigned_cons_cons : RawAssigned (a :: t :: ts) ↔
    (t.isRaw = true → a.kind = .assign) ∧ RawAssigned (t :: ts) :=
  List.isChain_cons_cons

theorem RawAssigned.cons_of_not_raw (ht : t.isRaw = false) (H : RawAssigned (t :: ts)) :
    RawAssigned (a :: t :: ts) := by
  refine rawAssigned_cons_cons.mpr ⟨fun h => ?_, H⟩
  rw [ht] at h
  cases h

theorem RawAssigned.cons_of_kind (h : t.kind ≠ .string) (H : RawAssigned (t :: ts)) :
    RawAssigned (a :: t :: ts) :=
  H.cons_of_not_raw (isRaw_of_kind h)

theorem RawAssigned.tail (H : RawAssigned (t :: ts)) : RawAssigned ts := by
  cases ts with
  | nil => exact .nil
  | cons => exact (rawAssigned_cons_cons.mp H).2

end Token

/-- No scalar is written between back-ticks. -/
theorem Cursor.IsScalar.isRaw {c c' : Cursor} {t : Token} {part : List Char} {x : Literal}
    (ht : c.IsScalar t c' part x) : t.isRaw = false := by
  obtain ⟨a, cs, rfl, ha⟩ := ht.scalar.head
  have hne : a ≠ Lexeme.backTick := ne_of_class ha rfl
  simp [Token.isRaw, ht.text, hne]

/-- A run gives texts between back-ticks behind assignments only. -/
theorem Run.rawAssigned {q : Stage} {c : Cursor} {s : Scan} (H : Run q c s)
    (hresume : ∀ c' t, s.resume = some c' → Token.RawAssigned (t :: c'.tokens)) (t : Token)
    (ht : q = .value → t.kind = .assign) : Token.RawAssigned (t :: s.all) := by
  induction H generalizing t with
  | fault | finish => exact .cons_of_kind (by nofun) (.singleton _)
  | lineEnd => exact hresume _ t rfl
  | assign _ _ ih =>
    rw [Scan.all_cons]
    exact .cons_of_kind (by nofun) (ih hresume _ fun _ => rfl)
  | bare _ ih =>
    rw [Scan.all_cons, Scan.all_cons]
    refine .cons_of_kind (by nofun) ?_
    exact .cons_of_kind (by nofun) (ih hresume _ nofun)
  | raw _ _ _ ih =>
    rw [Scan.all_cons]
    exact Token.rawAssigned_cons_cons.mpr ⟨fun _ => ht rfl, ih hresume _ nofun⟩
  | scalar hscalar _ ih | element hscalar _ ih =>
    rw [Scan.all_cons]
    exact .cons_of_not_raw hscalar.isRaw (ih hresume _ nofun)
  | commaFault =>
    rw [Scan.all_cons]
    refine .cons_of_kind (by nofun) ?_
    exact .cons_of_kind (by nofun) (.singleton _)
  | identifier _ _ _ ih | list _ _ ih | comma _ _ ih | close _ _ ih =>
    rw [Scan.all_cons]
    exact .cons_of_kind (by nofun) (ih hresume _ nofun)

theorem Cursor.rawAssigned_scan (c : Cursor)
    (hresume : ∀ c' t, c.scan.resume = some c' → Token.RawAssigned (t :: c'.tokens)) (t : Token) :
    Token.RawAssigned (t :: c.scan.all) := by
  have hline := c.lineStart
  generalize c.scan = scan at hline hresume
  cases hline with
  | finish => exact .cons_of_kind (by nofun) (.singleton _)
  | marker =>
    rw [Scan.all_cons]
    refine .cons_of_kind (by nofun) ?_
    exact (run_marker _).rawAssigned hresume _ nofun
  | prose | proseLine => exact hresume _ t rfl

/-- In the tokens of a text, texts between back-ticks stand behind assignments only. -/
theorem Cursor.rawAssigned_tokens (c : Cursor) (t : Token) :
    Token.RawAssigned (t :: c.tokens) := by
  induction c using resume_induction generalizing t with
  | step c ih =>
    rw [tokens_eq]
    exact c.rawAssigned_scan (fun c' t' h => ih c' h t') t

end Markers
