import Lox.Proofs.Grammar.Recognition
import Mathlib.Data.List.TakeWhile

namespace Lox.Grammar

open Lox.Expr

-- The operators that stand between two operands.
def betweenOperands : List Symbol :=
  [.bangEqual, .equalEqual, .greater, .greaterEqual, .less, .lessEqual, .minus, .plus, .slash, .star]

-- Whether a token behind an expression wants a further operand for it.
def Continues (t : Token) : Prop := ∃ s ∈ betweenOperands, t.kind = .symbol s

-- The first tokens, so many of them, are an expression within the limit on nesting. It does not go
-- past the end of input, and the token behind it does not continue it.
structure EndsAt (tokens : List Token) (length : Nat) (e : Expr) : Prop where
  inside : length ≤ tokens.findIdx Token.isEof
  derives : Derives .expression (tokens.take length) e
  nesting : e.nesting ≤ 128
  stops : ∀ t, tokens[length]? = some t → ¬ Continues t

theorem mem_betweenOperands_iff {s : Symbol} :
    s ∈ betweenOperands ↔ s.rank?.isSome = true := by
  cases s <;> decide

theorem continues_iff {t : Token} : Continues t ↔ t.data.rank?.isSome = true := by
  constructor
  · rintro ⟨s, hs, hk⟩
    rw [data_of_kind_symbol hk]
    exact mem_betweenOperands_iff.mp hs
  · intro h
    obtain ⟨rank, hrank⟩ := Option.isSome_iff_exists.mp h
    obtain ⟨s, hs, hk⟩ := rank?_eq_some_iff.mp hrank
    have hsome : s.rank?.isSome = true := by rw [mem_binaryOperators_iff.mp hs, Option.isSome_some]
    exact ⟨s, mem_betweenOperands_iff.mpr hsome, hk⟩

theorem stops_drop_iff {tokens : List Token} {length : Nat} :
    Stops (tokens.drop length) ↔ ∀ t, tokens[length]? = some t → ¬ Continues t := by
  simp [Stops, List.head?_drop, continues_iff]

theorem stops_take {tokens : List Token} (h : Stops tokens) (count : Nat) :
    Stops (tokens.take count) := by
  intro t ht
  rw [List.head?_take] at ht
  split at ht
  · cases ht
  · exact h t ht

theorem stops_append {tokens more : List Token} (h : Stops tokens) (hmore : Stops more) :
    Stops (tokens ++ more) := by
  cases tokens with
  | nil => exact hmore
  | cons t tokens => exact h

theorem stops_of_isEof {tokens : List Token} (h : ∀ t ∈ tokens.head?, t.isEof = true) :
    Stops tokens := by
  intro t ht
  have heof := h t ht
  obtain ⟨data, span⟩ := t
  cases data with
  | eof => rfl
  | _ => cases heof

-- Behind an expression that no operator continues there is no more to be taken for an expression. A
-- reader with room for both of them would have to find either one.
theorem Derives.append_eq_nil {used more : List Token} {e longer : Expr}
    (h : Derives .expression used e) (hmore : Stops more)
    (hlonger : Derives .expression (used ++ more) longer) : more = [] := by
  have hexact := exact_operand (max e.nesting longer.nesting)
  have hread := hexact.readChain_append h (Nat.le_max_left _ _) hmore
  have hend : Stops [] := by simp [Stops]
  have hall := hexact.readChain_append hlonger (Nat.le_max_right _ _) hend
  rw [List.append_nil, hread] at hall
  cases hall
  rfl

section Ends

variable {tokens : List Token} {length other : Nat} {e f : Expr}

theorem EndsAt.le_length (h : EndsAt tokens length e) : length ≤ tokens.length :=
  Nat.le_trans h.inside List.findIdx_le_length

theorem EndsAt.longest (h : EndsAt tokens length e) (hother : other ≤ tokens.length)
    (hlonger : Derives .expression (tokens.take other) f) : other ≤ length := by
  by_contra hlt
  have hsplit : tokens.take other =
      tokens.take length ++ (tokens.drop length).take (other - length) := by
    rw [← List.take_add]
    congr 1
    omega
  have hstops := stops_take (stops_drop_iff.mpr h.stops) (other - length)
  rw [hsplit] at hlonger
  have hlength := congrArg List.length (h.derives.append_eq_nil hstops hlonger)
  simp only [List.length_take, List.length_drop, List.length_nil] at hlength
  omega

theorem EndsAt.unique (h : EndsAt tokens length e) (h' : EndsAt tokens other f) :
    other = length :=
  Nat.le_antisymm (h.longest h'.le_length h'.derives) (h'.longest h.le_length h.derives)

end Ends

theorem body_eq_take (tokens : List Token) :
    (Input.ofTokens tokens).body = tokens.take (tokens.findIdx Token.isEof) := by
  simp [Input.ofTokens, List.takeWhile_eq_take_findIdx_not]

-- What is left out as the end of input and everything behind it is nothing to go on with.
theorem stops_drop_findIdx (tokens : List Token) :
    Stops (tokens.drop (tokens.findIdx Token.isEof)) := by
  apply stops_of_isEof
  intro t ht
  rw [List.head?_drop] at ht
  obtain ⟨hlt, rfl⟩ := List.getElem?_eq_some_iff.mp ht
  exact List.findIdx_getElem

-- The tokens that are parsed, and those from the end of input on. One that is missing is made up for.
theorem exists_tail (tokens : List Token) :
    ∃ tail, tokens = (Input.ofTokens tokens).body ++ tail ∧
      (∀ t ∈ tail.head?, t.isEof = true) ∧
      (Input.ofTokens tokens).close = tail.headD (Input.missingEof tokens) := by
  refine ⟨tokens.dropWhile fun t => !t.isEof, List.takeWhile_append_dropWhile.symm, ?_, ?_⟩
  · intro t ht
    have hnot := List.head?_dropWhile_not (fun t : Token => !t.isEof) tokens
    rw [ht] at hnot
    simpa using hnot
  · rw [List.headD_eq_head?_getD, ← List.find?_eq_head?_dropWhile_not]
    rfl

theorem parse_eq_ok_iff {tokens : List Token} {e : Expr} :
    parse tokens = .ok e ↔ ∃ rest, Expr.read (Input.ofTokens tokens).body = .ok ⟨e, rest⟩ := by
  cases hread : Expr.read (Input.ofTokens tokens).body with
  | error fault => simp [parse, hread]
  | ok front =>
    obtain ⟨e', rest⟩ := front
    simp [parse, hread]

theorem parse_eq_ok_iff_endsAt {tokens : List Token} {e : Expr} :
    parse tokens = .ok e ↔ ∃ length, EndsAt tokens length e := by
  simp only [parse_eq_ok_iff, body_eq_take, read_eq_ok_iff]
  constructor
  · rintro ⟨rest, used, hused, hderives, hnesting, hstops⟩
    have hbehind := stops_append hstops (stops_drop_findIdx tokens)
    have hinside : used.length ≤ tokens.findIdx Token.isEof := by
      have hlength := congrArg List.length hused
      simp only [List.length_take, List.length_append] at hlength
      omega
    have hall := List.take_append_drop (tokens.findIdx Token.isEof) tokens
    rw [hused, List.append_assoc] at hall
    refine ⟨used.length, hinside, ?_, hnesting, stops_drop_iff.mp ?_⟩
    · rwa [← hall, List.take_left]
    · generalize tokens.drop (tokens.findIdx Token.isEof) = tail at hall hbehind
      rwa [← hall, List.drop_left]
  · rintro ⟨length, h⟩
    refine ⟨(tokens.take (tokens.findIdx Token.isEof)).drop length, tokens.take length, ?_,
      h.derives, h.nesting, ?_⟩
    · have hfirst : (tokens.take (tokens.findIdx Token.isEof)).take length = tokens.take length := by
        rw [List.take_take, Nat.min_eq_left h.inside]
      rw [← hfirst, List.take_append_drop]
    · rw [List.drop_take]
      exact stops_take (stops_drop_iff.mpr h.stops) _

-- The expression that is read at the front of some tokens is the longest one there, and there is one
-- to be read only if no operator goes on behind it. So an operator that nothing completes is at
-- fault, and any other token ends the expression.
theorem parse_longest (tokens : List Token) :
    (∀ e, parse tokens = .ok e ↔ ∃ length, EndsAt tokens length e) ∧
    (∀ length e, EndsAt tokens length e →
      (∀ other f, EndsAt tokens other f → other = length) ∧
      ∀ other f, other ≤ tokens.length → Derives .expression (tokens.take other) f →
        other ≤ length) ∧
    (∀ length t, tokens[length]? = some t → Continues t →
      (∃ e, Derives .expression (tokens.take length) e) →
      (∀ other f, other ≤ tokens.length → Derives .expression (tokens.take other) f →
        other ≤ length) →
      ∃ error, parse tokens = .error error) := by
  refine ⟨fun e => parse_eq_ok_iff_endsAt, ?_, ?_⟩
  · intro length e h
    exact ⟨fun other f h' => h.unique h', fun other f hother hlonger => h.longest hother hlonger⟩
  · rintro length t ht hcontinues ⟨e, hderives⟩ hlongest
    cases hparse : parse tokens with
    | error error => exact ⟨error, rfl⟩
    | ok f =>
      obtain ⟨other, h⟩ := parse_eq_ok_iff_endsAt.mp hparse
      have hlt : length < tokens.length := (List.getElem?_eq_some_iff.mp ht).1
      have hle := h.longest (Nat.le_of_lt hlt) hderives
      have hge := hlongest other f h.le_length h.derives
      obtain rfl := Nat.le_antisymm hle hge
      exact absurd hcontinues (h.stops t ht)

end Lox.Grammar
