import Mathlib.Computability.RegularExpressions
import Mathlib.Order.CompletePartialOrder
import Markers.Proofs.Token.Stream

/-!
# The language of token streams

The kinds of a text's tokens are a word of a regular language and the end behind it, or a part of
such a word and a fault. From each stage a stream goes on with the words of the stage's own language
(`Stage.rest`). A token leads from one stage's language into that of another, and at each stage there
is a word to go on with, so that a fault always cuts one short.
-/

namespace Markers

open scoped Computability
open RegularExpression

namespace Kinds

def scalar : RegularExpression Token.Kind :=
  char .string + char .bool + char .int + char .float + char .complex

/-- An element of a list behind a comma. -/
def separated : RegularExpression Token.Kind :=
  char .comma * scalar

/-- A list, which has at least one element. -/
def list : RegularExpression Token.Kind :=
  char .listOpen * scalar * star separated * char .listClose

def value : RegularExpression Token.Kind :=
  scalar + list

def marker : RegularExpression Token.Kind :=
  char .plus * char .identifier * char .assign * value

def markers : RegularExpression Token.Kind :=
  star marker

theorem singleton_le_scalar {k : Token.Kind} {j : Literal.Kind} (h : k.literal? = some j) :
    ({[k]} : Language Token.Kind) ≤ scalar.matches' := by
  rintro _ rfl
  cases k <;> cases h <;> exact (rmatch_iff_matches' _ _).mp rfl

end Kinds

namespace Stage

/-- What a stream that comes to its end goes on with at a stage. -/
def rest : Stage → RegularExpression Token.Kind
  | marker => Kinds.markers
  | identifier => char .identifier * (char .assign * (Kinds.value * Kinds.markers))
  | assign => char .assign * (Kinds.value * Kinds.markers)
  | value => Kinds.value * Kinds.markers
  | element => Kinds.scalar * (star Kinds.separated * (char .listClose * Kinds.markers))
  | separator => star Kinds.separated * (char .listClose * Kinds.markers)

/-- In the algebra of languages, a token in front of what the stage behind it goes on with is part
of what its own stage goes on with. -/
theorem singleton_mul_rest_le {q q' : Stage} {k : Token.Kind} (h : q.next? k = some q') :
    {[k]} * q'.rest.matches' ≤ q.rest.matches' := by
  cases q with
  | marker =>
    obtain ⟨rfl, rfl⟩ := next?_marker_eq h
    calc {[.plus]} * identifier.rest.matches'
      _ = Kinds.marker.matches' * Kinds.markers.matches' := by
        simp only [rest, Kinds.marker, matches'_mul, matches'_char, mul_assoc]
      _ ≤ marker.rest.matches' := mul_kstar_le_kstar
  | identifier =>
    obtain ⟨rfl, rfl⟩ := next?_identifier_eq h
    exact le_rfl
  | assign =>
    obtain ⟨rfl, rfl⟩ := next?_assign_eq h
    exact le_rfl
  | value =>
    rcases next?_value_eq h with ⟨rfl, rfl⟩ | ⟨⟨j, hj⟩, rfl⟩
    · calc {[.listOpen]} * element.rest.matches'
        _ = Kinds.list.matches' * marker.rest.matches' := by
          simp only [rest, Kinds.list, matches'_mul, matches'_char, matches'_star, mul_assoc]
        _ ≤ value.rest.matches' := mul_le_mul_left le_sup_right _
    · exact mul_le_mul_left ((Kinds.singleton_le_scalar hj).trans le_sup_left) _
  | element =>
    obtain ⟨⟨j, hj⟩, rfl⟩ := next?_element_eq h
    exact mul_le_mul_left (Kinds.singleton_le_scalar hj) _
  | separator =>
    rcases next?_separator_eq h with ⟨rfl, rfl⟩ | ⟨rfl, rfl⟩
    · calc {[.comma]} * element.rest.matches'
        _ = Kinds.separated.matches' * Kinds.separated.matches'∗ *
            ({[.listClose]} * Kinds.markers.matches') := by
          simp only [rest, Kinds.separated, matches'_mul, matches'_char, matches'_star, mul_assoc]
        _ ≤ separator.rest.matches' := mul_le_mul_left mul_kstar_le_kstar _
    · exact le_mul_of_one_le_left' one_le_kstar

theorem cons_mem_rest {q q' : Stage} {k : Token.Kind} {ks : List Token.Kind}
    (h : q.next? k = some q') (H : ks ∈ q'.rest.matches') : k :: ks ∈ q.rest.matches' :=
  singleton_mul_rest_le h (Language.append_mem_mul (Set.mem_singleton [k]) H)

theorem nil_mem_rest : [] ∈ marker.rest.matches' :=
  Language.nil_mem_kstar _

/-- At each stage a stream can still go on, and come to its end. -/
theorem exists_mem_rest (q : Stage) : ∃ k ks, k :: ks ∈ q.rest.matches' := by
  have hvalue : [.bool] ∈ value.rest.matches' := cons_mem_rest rfl nil_mem_rest
  have hassign : [.assign, .bool] ∈ assign.rest.matches' := cons_mem_rest rfl hvalue
  have hidentifier : [.identifier, .assign, .bool] ∈ identifier.rest.matches' :=
    cons_mem_rest rfl hassign
  have hseparator : [.listClose] ∈ separator.rest.matches' := cons_mem_rest rfl nil_mem_rest
  cases q with
  | marker => exact ⟨.plus, _, cons_mem_rest rfl hidentifier⟩
  | identifier => exact ⟨_, _, hidentifier⟩
  | assign => exact ⟨_, _, hassign⟩
  | value => exact ⟨_, _, hvalue⟩
  | element => exact ⟨.bool, _, cons_mem_rest rfl hseparator⟩
  | separator => exact ⟨_, _, hseparator⟩

end Stage

/-! ### Streams -/

/-- The kinds of tokens that come to the end of a word, or to a fault on the way there. -/
def Kinds.EndIn (words : Language Token.Kind) (kinds : List Token.Kind) : Prop :=
  (∃ ks ∈ words, kinds = ks ++ [.finish]) ∨
    ∃ front k ks, front ++ k :: ks ∈ words ∧ kinds = front ++ [.fault]

/-- A stream comes to the end of a word of its stage, or to a fault on the way there. -/
theorem Stream.endIn {q : Stage} {ts : List Token} (H : Stream q ts) :
    Kinds.EndIn q.rest.matches' (ts.map Token.kind) := by
  induction H with
  | finish => exact .inl ⟨[], Stage.nil_mem_rest, rfl⟩
  | @fault q _ h =>
    obtain ⟨k, ks, hks⟩ := Stage.exists_mem_rest q
    exact .inr ⟨[], k, ks, hks, by rw [List.map_singleton, h, List.nil_append]⟩
  | cons hq _ _ ih =>
    rcases ih with ⟨ks, hks, heq⟩ | ⟨front, k, ks, hks, heq⟩
    · exact .inl ⟨_, Stage.cons_mem_rest hq hks, by rw [List.map_cons, heq, List.cons_append]⟩
    · exact .inr ⟨_, k, ks, Stage.cons_mem_rest hq hks,
        by rw [List.map_cons, heq, List.cons_append]⟩

theorem Stage.isTerminal_of_next? {q q' : Stage} {k : Token.Kind} (h : q.next? k = some q') :
    k.isTerminal = false := by
  cases k <;> first | rfl | (cases q <;> cases h)

/-- A stream has one terminal token, the last one. -/
theorem Stream.terminal {q : Stage} {ts : List Token} (H : Stream q ts) :
    ∃ front t, ts = front ++ [t] ∧ t.isTerminal = true ∧ ∀ t ∈ front, t.isTerminal = false := by
  induction H with
  | finish p => exact ⟨[], _, rfl, rfl, List.forall_mem_nil _⟩
  | fault h => exact ⟨[], _, rfl, by rw [Token.isTerminal, h]; rfl, List.forall_mem_nil _⟩
  | cons hq _ _ ih =>
    obtain ⟨front, t, rfl, ht, hfront⟩ := ih
    exact ⟨_ :: front, t, rfl, ht, List.forall_mem_cons.mpr ⟨Stage.isTerminal_of_next? hq, hfront⟩⟩

namespace Cursor

/-- The tokens of a text are those of a marker and what follows it, unless there are none. -/
theorem tokens_cases (c : Cursor) :
    (∃ p, c.tokens = [.finish p]) ∨
      ∃ p ts, c.tokens = ⟨.plus, "+", p⟩ :: ts ∧ Stream .identifier ts := by
  have hline := c.lineStart
  generalize hscan : c.scan = scan at hline
  rw [tokens_eq, hscan]
  cases hline with
  | finish => exact .inl ⟨_, rfl⟩
  | marker =>
    exact .inr ⟨_, _, Scan.all_cons _ _, (run_marker _).stream fun c' _ => c'.stream_tokens⟩
  | @prose _ c' | @proseLine _ c' =>
    have : c'.rest.length < c.rest.length := length_resume_scan (by rw [hscan]; rfl)
    exact c'.tokens_cases
termination_by c.rest.length

end Cursor

/-- A text's tokens are those of markers up to the end of the text, or a nonempty part of those of
markers up to a fault, with a plus sign in front. No token but the last is terminal. Pulling gives
these tokens, and nothing ever after. -/
theorem tokenize_wellFormed (text : String) :
    let kinds := (tokenize text).map Token.kind
    ((∃ ks ∈ Kinds.markers.matches', kinds = ks ++ [.finish]) ∨
      ∃ front k ks, front.head? = some .plus ∧ front ++ k :: ks ∈ Kinds.markers.matches' ∧
        kinds = front ++ [.fault]) ∧
    (∃ front t, tokenize text = front ++ [t] ∧ t.isTerminal = true ∧
      ∀ t ∈ front, t.isTerminal = false) ∧
    ∀ n, ((TokenStream.ofString text).pull n).1 = (List.range n).map ((tokenize text)[·]?) := by
  refine ⟨?_, (Cursor.stream_tokens _).terminal, (TokenStream.ofString text).pull_eq⟩
  have hplus {ks : List Token.Kind} (h : ks ∈ Stage.identifier.rest.matches') :
      .plus :: ks ∈ Kinds.markers.matches' := Stage.cons_mem_rest (q := .marker) rfl h
  rcases (Cursor.ofString text).tokens_cases with ⟨p, heq⟩ | ⟨p, ts, heq, H⟩
  · exact .inl ⟨[], Stage.nil_mem_rest, by rw [tokenize, heq]; rfl⟩
  · rw [tokenize, heq, List.map_cons]
    rcases H.endIn with ⟨ks, hks, heq⟩ | ⟨front, k, ks, hks, heq⟩
    · exact .inl ⟨.plus :: ks, hplus hks, by rw [heq]; rfl⟩
    · exact .inr ⟨.plus :: front, k, ks, rfl, hplus hks, by rw [heq]; rfl⟩

end Markers
