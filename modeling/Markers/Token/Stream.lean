import Markers.Token.Scan

/-!
# Token streams

The tokens of a text, all at once or pulled one by one. A stream scans no further than the next
token asks for. That makes no difference to what is pulled: the tokens of the text in turn, and
nothing behind the last of them (`pull_eq`).
-/

namespace Markers

/-- All tokens from a cursor at the beginning of a line on. -/
def Cursor.tokens (c : Cursor) : List Token :=
  match _h : c.scan.resume with
  | none => c.scan.tokens
  | some c' => c.scan.tokens ++ c'.tokens
termination_by c.rest.length
decreasing_by exact Cursor.length_resume_scan ‹_›

/-- The tokens of a text. The last one is terminal, and no other is. -/
def tokenize (text : String) : List Token :=
  (Cursor.ofString text).tokens

/-- Tokens that are scanned but not yet pulled, and where scanning resumes unless it is over. -/
structure TokenStream where
  ready : List Token
  resume : Option Cursor
  deriving DecidableEq, Repr

namespace TokenStream

/-- The stream of a text of which nothing is scanned yet. -/
def ofString (text : String) : TokenStream :=
  ⟨[], some (.ofString text)⟩

/-- The tokens that are still to be pulled. -/
def toList (s : TokenStream) : List Token :=
  match s.resume with
  | none => s.ready
  | some c => s.ready ++ c.tokens

/-- Scans from a cursor until there is a token to pull. -/
def refill (c : Cursor) : TokenStream :=
  match c.scan.tokens, _h : c.scan.resume with
  | [], some c' => refill c'
  | ts, resume => ⟨ts, resume⟩
termination_by c.rest.length
decreasing_by exact Cursor.length_resume_scan ‹_›

/-- Pulls a token off the stream, unless the terminal one is pulled already. -/
def next (s : TokenStream) : Option Token × TokenStream :=
  match s.ready, s.resume with
  | t :: ts, resume => (some t, ⟨ts, resume⟩)
  | [], none => (none, s)
  | [], some c =>
    match refill c with
    | ⟨t :: ts, resume⟩ => (some t, ⟨ts, resume⟩)
    | s => (none, s)

/-- Pulls a number of times: what comes out, and the stream that is left. -/
def pull (s : TokenStream) : Nat → List (Option Token) × TokenStream
  | 0 => ([], s)
  | n + 1 =>
    let (t, s) := s.next
    let (ts, s) := s.pull n
    (t :: ts, s)

/-! ### Pulls and the tokens of a text -/

theorem toList_scan (c : Cursor) : toList ⟨c.scan.tokens, c.scan.resume⟩ = c.tokens := by
  rw [Cursor.tokens]
  split
  · next h => simp only [toList, h]
  · next h => simp only [toList, h]

@[simp] theorem toList_refill (c : Cursor) : (refill c).toList = c.tokens := by
  fun_induction refill c with
  | case1 c c' hresume hts ih =>
    rw [ih, ← toList_scan c, hts, hresume]
    rfl
  | case2 c => exact toList_scan c

/-- A refill leaves nothing to pull only where the text is over. -/
theorem resume_refill {c : Cursor} (h : (refill c).ready = []) : (refill c).resume = none := by
  fun_induction refill c with
  | case1 _ _ _ _ ih => exact ih h
  | case2 c hresume =>
    exact Option.eq_none_iff_forall_ne_some.mpr fun c' hc' => hresume c' h hc'

theorem next_refill (c : Cursor) : next ⟨[], some c⟩ = (refill c).next := by
  have hresume := resume_refill (c := c)
  simp only [next]
  generalize refill c = s at hresume
  match s with
  | ⟨_ :: _, _⟩ => rfl
  | ⟨[], resume⟩ =>
    cases hresume rfl
    rfl

theorem next_of_ready {s : TokenStream} (h : s.ready = [] → s.resume = none) :
    s.next.1 = s.toList.head? ∧ s.next.2.toList = s.toList.tail := by
  match s with
  | ⟨_ :: _, resume⟩ => cases resume <;> exact ⟨rfl, rfl⟩
  | ⟨[], resume⟩ =>
    cases h rfl
    exact ⟨rfl, rfl⟩

/-- A pull takes the first of the tokens that are still to be pulled. -/
theorem next_eq (s : TokenStream) :
    s.next.1 = s.toList.head? ∧ s.next.2.toList = s.toList.tail := by
  match s with
  | ⟨_ :: _, _⟩ => exact next_of_ready nofun
  | ⟨[], none⟩ => exact next_of_ready fun _ => rfl
  | ⟨[], some c⟩ =>
    have hlist : toList ⟨[], some c⟩ = (refill c).toList := (toList_refill c).symm
    rw [next_refill, hlist]
    exact next_of_ready resume_refill

theorem length_next_lt {s : TokenStream} {t : Token} (h : s.next.1 = some t) :
    s.next.2.toList.length < s.toList.length := by
  obtain ⟨hhead, htail⟩ := s.next_eq
  obtain ⟨ts, hts⟩ := List.head?_eq_some_iff.mp (hhead.symm.trans h)
  rw [htail, hts, List.tail_cons, List.length_cons]
  exact Nat.lt_succ_self _

/-- Pulls take the tokens one by one, and nothing once they are all taken. -/
theorem pull_eq (s : TokenStream) (n : Nat) :
    (s.pull n).1 = (List.range n).map (s.toList[·]?) := by
  induction n generalizing s with
  | zero => rfl
  | succ n ih =>
    obtain ⟨hhead, htail⟩ := s.next_eq
    calc (s.pull (n + 1)).1
      _ = s.next.1 :: (s.next.2.pull n).1 := rfl
      _ = s.toList.head? :: (List.range n).map (s.toList.tail[·]?) := by rw [hhead, ih, htail]
      _ = (List.range (n + 1)).map (s.toList[·]?) := by
        simp [List.range_succ_eq_map, List.head?_eq_getElem?]

/-- Pulls leave the tokens behind those that they take. -/
theorem toList_pull (s : TokenStream) (n : Nat) : (s.pull n).2.toList = s.toList.drop n := by
  induction n generalizing s with
  | zero => rfl
  | succ n ih =>
    calc (s.pull (n + 1)).2.toList
      _ = (s.next.2.pull n).2.toList := rfl
      _ = s.toList.tail.drop n := by rw [ih, s.next_eq.2]
      _ = s.toList.drop (n + 1) := by rw [List.drop_tail]

end TokenStream

end Markers
