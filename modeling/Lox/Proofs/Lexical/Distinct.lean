import Lox.Proofs.Lexical.Equality
import Lox.Proofs.Lexical.Order

namespace Lox

open Lox.Number Lox.Text

namespace Text

theorem Position.beq_iff {p q : Position} :
    (p == q) = true ↔ p.source = q.source ∧ p.rest = q.rest := by
  change (p.source == q.source && p.rest == q.rest) = true ↔ _
  rw [Bool.and_eq_true, beq_iff_eq, beq_iff_eq]

theorem Span.beq_iff {s t : Span} :
    (s == t) = true ↔ (s.start == t.start) = true ∧ (s.stop == t.stop) = true :=
  Bool.and_eq_true_iff

theorem Span.beq_self (s : Span) : (s == s) = true :=
  Span.beq_iff.mpr ⟨Position.beq_iff.mpr ⟨rfl, rfl⟩, Position.beq_iff.mpr ⟨rfl, rfl⟩⟩

end Text

theorem Token.beq_iff {t u : Token} :
    (t == u) = true ↔ (t.data == u.data) = true ∧ (t.span == u.span) = true :=
  Bool.and_eq_true_iff

-- Equal tokens start at the same place of the same text.
theorem Token.start_of_beq {t u : Token} (h : (t == u) = true) :
    t.span.start.source = u.span.start.source ∧ t.span.start.rest = u.span.start.rest :=
  Position.beq_iff.mp (Span.beq_iff.mp (Token.beq_iff.mp h).2).1

-- A meaning equals itself unless its number is none.
theorem TokenData.beq_self {data : TokenData}
    (h : ∀ value, data = .number value → value.isNaN = false) : (data == data) = true := by
  change (decide (data.kind = data.kind) && data.payload? == data.payload?) = true
  rw [decide_eq_true rfl, Bool.true_and]
  cases data with
  | number value => exact Binary64.beq_self (h value rfl)
  | str text => exact beq_self_eq_true text
  | symbol | keyword | identifier | eof => rfl

namespace Lexical

section Scans

variable {log log' : Log} {source other : String} {t u : Token}

theorem scan_fst (log : Log) (source : String) :
    (scan log source).1 = (Stream.ofSource source).items.filterMap Item.token? := by
  rw [scan, Stream.collect_eq]

-- The log has no influence on the tokens.
theorem scan_fst_congr (log log' : Log) (source : String) :
    (scan log source).1 = (scan log' source).1 :=
  (scan_fst log source).trans (scan_fst log' source).symm

theorem isNaN_of_mem_scan (h : t ∈ (scan log source).1) :
    ∀ value, t.data = .number value → value.isNaN = false := by
  intro value hvalue
  obtain ⟨num, den, rfl⟩ := exists_nearest_of_mem_scan h hvalue
  exact Binary64.isNaN_nearest num den

theorem beq_self_of_mem_scan (h : t ∈ (scan log source).1) : (t == t) = true :=
  Token.beq_iff.mpr ⟨TokenData.beq_self (isNaN_of_mem_scan h), Span.beq_self t.span⟩

theorem source_of_mem_scan (h : t ∈ (scan log source).1) : t.span.start.source = source := by
  rw [scan_fst] at h
  obtain ⟨item, hitem, htoken⟩ := List.mem_filterMap.mp h
  cases item with
  | fault => cases htoken
  | token =>
    cases htoken
    obtain ⟨start, stop, after, -, hfound⟩ := (placed_ofSource source).found_of_mem hitem
    rw [hfound.span_eq]
    rfl

-- Tokens of different texts are never equal.
theorem source_eq_of_beq (ht : t ∈ (scan log source).1) (hu : u ∈ (scan log' other).1)
    (h : (t == u) = true) : source = other := by
  rw [← source_of_mem_scan ht, ← source_of_mem_scan hu]
  exact (Token.start_of_beq h).1

-- Less of the source is left at the start of each token than at the start of the one before.
theorem Before.rest_lt (h : Before source (.token t) (.token u)) :
    u.span.start.rest.length < t.span.start.rest.length := by
  obtain ⟨start, stop, start', stop', after', ht, hu, hbehind⟩ := h
  have hlt := ht.length_lt
  have hle := hbehind.length_le
  have hall := (hu.start_prefix.trans hu.stop_prefix).length_le
  rw [ht.span_eq, hu.span_eq]
  simp only [Position.behind, List.length_drop]
  omega

theorem pairwise_scan (log : Log) (source : String) :
    (scan log source).1.Pairwise fun t u => u.span.start.rest.length < t.span.start.rest.length := by
  rw [scan_fst]
  refine (placed_ofSource source).pairwise_items.filterMap Item.token? ?_
  intro first second hbefore t ht u hu
  cases first <;> cases ht
  cases second <;> cases hu
  exact hbefore.rest_lt

theorem index_eq_of_beq {i j : Nat} (ht : (scan log source).1[i]? = some t)
    (hu : (scan log source).1[j]? = some u) (h : (t == u) = true) : i = j := by
  have hrest := congrArg List.length (Token.start_of_beq h).2
  obtain ⟨hi, rfl⟩ := List.getElem?_eq_some_iff.mp ht
  obtain ⟨hj, rfl⟩ := List.getElem?_eq_some_iff.mp hu
  have hpairwise := List.pairwise_iff_getElem.mp (pairwise_scan log source)
  rcases Nat.lt_trichotomy i j with hlt | heq | hlt
  · exact absurd hrest (Nat.ne_of_gt (hpairwise i j hi hj hlt))
  · exact heq
  · exact absurd hrest (Nat.ne_of_lt (hpairwise j i hj hi hlt))

end Scans

end Lexical

end Lox
