import Lox.Proofs.Grammar.Viable
import Lox.Proofs.Lexical.Distinct
import Lox.Proofs.Run.Readability
import Mathlib.Data.List.Forall2

namespace Lox

open Lox.Expr Lox.Grammar Lox.Lexical Lox.Number

namespace Expr

-- A literal with so many groupings around it.
def wrapped : Nat → Literal → Expr
  | 0, x => literal x
  | count + 1, x => grouping (wrapped count x)

variable {e f : Expr}

theorem operators_eq_nil_iff : e.operators = [] ↔ ∃ count x, e = wrapped count x := by
  constructor
  · intro h
    induction e with
    | literal x => exact ⟨0, x, rfl⟩
    | grouping e ih =>
      obtain ⟨count, x, rfl⟩ := ih h
      exact ⟨count + 1, x, rfl⟩
    | unary => cases h
    | binary => cases List.append_eq_nil_iff.mp h |>.2
  · rintro ⟨count, x, rfl⟩
    induction count with
    | zero => rfl
    | succ count ih => exact ih

theorem wrapped_beq_wrapped {count other : Nat} {x y : Literal} :
    (wrapped count x == wrapped other y) = true ↔ count = other ∧ (x == y) = true := by
  induction count generalizing other with
  | zero =>
    cases other with
    | zero => exact (and_iff_right rfl).symm
    | succ => exact ⟨nofun, nofun⟩
  | succ count ih =>
    cases other with
    | zero => exact ⟨nofun, nofun⟩
    | succ other => exact ih.trans (and_congr_left' Nat.succ_inj.symm)

-- Equal trees have equal operators, one after the other.
theorem operators_of_beq (h : (e == f) = true) :
    List.Forall₂ (fun o p => (o == p) = true) e.operators f.operators := by
  induction e generalizing f with
  | literal =>
    cases f with
    | literal => exact .nil
    | grouping | unary | binary => cases h
  | grouping e ih =>
    cases f with
    | grouping f =>
      have hinner := ih (show (e == f) = true from h)
      exact hinner
    | literal | unary | binary => cases h
  | unary o e ih =>
    cases f with
    | unary p f =>
      have hparts : (o == p && e == f) = true := h
      rw [Bool.and_eq_true] at hparts
      exact .cons hparts.1 (ih hparts.2)
    | literal | grouping | binary => cases h
  | binary l o r ihl ihr =>
    cases f with
    | binary l' p r' =>
      have hparts : (l == l' && o == p && r == r') = true := h
      rw [Bool.and_eq_true, Bool.and_eq_true] at hparts
      exact List.rel_append (ihl hparts.1.1) (.cons hparts.1.2 (ihr hparts.2))
    | literal | grouping | unary => cases h

-- A tree equals itself where all of its operators and leaves do.
theorem beq_self (ho : ∀ o ∈ e.operators, (o == o) = true) (hx : ∀ x ∈ e.leaves, (x == x) = true) :
    (e == e) = true := by
  induction e with
  | literal x => exact hx x List.mem_cons_self
  | grouping e ih => exact ih ho hx
  | unary o e ih =>
    have hinner := ih (fun p hp => ho p (List.mem_cons_of_mem o hp)) hx
    exact Bool.and_eq_true_iff.mpr ⟨ho o List.mem_cons_self, hinner⟩
  | binary l o r ihl ihr =>
    have hl := ihl (fun p hp => ho p (List.mem_append_left _ hp))
      fun x hx' => hx x (List.mem_append_left _ hx')
    have hr := ihr (fun p hp => ho p (List.mem_append_right _ (List.mem_cons_of_mem o hp)))
      fun x hx' => hx x (List.mem_append_right _ hx')
    have hmiddle := ho o (List.mem_append_right _ List.mem_cons_self)
    exact Bool.and_eq_true_iff.mpr ⟨Bool.and_eq_true_iff.mpr ⟨hl, hmiddle⟩, hr⟩

end Expr

theorem Grammar.Denotes.beq_self {data : TokenData} {x : Literal} (h : Denotes data x)
    (hdata : ∀ value, data = .number value → value.isNaN = false) : (x == x) = true := by
  cases h with
  | number value => exact Binary64.beq_self (hdata value rfl)
  | str text => exact beq_self_eq_true text
  | trueKw | falseKw | nilKw => rfl

section Scans

variable {log log' : Log} {a b : String}

theorem mem_scan_of_operator {e : Expr} {o : Token}
    (h : parse (scan log a).1 = .ok e ∨ parseComplete (scan log a).1 = .ok e)
    (ho : o ∈ e.operators) : o ∈ (scan log a).1 := by
  obtain ⟨used, hused, hderives⟩ := exists_derives h
  rw [(operators_and_leaves_of_derives hderives).1] at ho
  exact hused (List.mem_filter.mp ho).1

-- There is always a token to name in an error, the end of input if no other one.
theorem mem_scan_of_error {d : ParseError} (h : parseComplete (scan log a).1 = .error d) :
    d.token ∈ (scan log a).1 := by
  obtain ⟨used, rest, hbody, htoken, -⟩ := exists_of_parseComplete_error h
  have hfault : (Input.ofTokens (scan log a).1).body = used ++ (Fault.mk d.cause rest).rest := hbody
  rw [htoken]
  exact List.mem_of_getElem? (getElem?_of_error (exists_isEof_scan log a) hfault)

theorem beq_self_of_parsed {e : Expr}
    (h : parse (scan log a).1 = .ok e ∨ parseComplete (scan log a).1 = .ok e) :
    (e == e) = true := by
  apply Expr.beq_self
  · exact fun o ho => beq_self_of_mem_scan (mem_scan_of_operator h ho)
  · intro x hx
    obtain ⟨used, hused, hderives⟩ := exists_derives h
    rw [(operators_and_leaves_of_derives hderives).2] at hx
    obtain ⟨t, ht, hx⟩ := List.mem_filterMap.mp hx
    exact (literal?_eq_some_iff.mp hx).beq_self (isNaN_of_mem_scan (hused ht))

-- Trees from two sources are the same only as far as no operator is in them.
theorem beq_iff_of_parsed {e f : Expr} (he : parseComplete (scan log a).1 = .ok e)
    (hf : parseComplete (scan log' b).1 = .ok f) :
    (e == f) = true ↔ a = b ∨ e.operators = [] ∧ f.operators = [] ∧
      ∃ count x y, e = wrapped count x ∧ f = wrapped count y ∧ (x == y) = true := by
  constructor
  · intro h
    have hoperators := operators_of_beq h
    generalize hleft : e.operators = left at hoperators
    generalize hright : f.operators = right at hoperators
    cases hoperators with
    | nil =>
      obtain ⟨count, x, rfl⟩ := operators_eq_nil_iff.mp hleft
      obtain ⟨other, y, rfl⟩ := operators_eq_nil_iff.mp hright
      obtain ⟨rfl, hxy⟩ := wrapped_beq_wrapped.mp h
      exact .inr ⟨rfl, rfl, count, x, y, rfl, rfl, hxy⟩
    | @cons o p _ _ hop =>
      have ho : o ∈ e.operators := hleft ▸ List.mem_cons_self
      have hp : p ∈ f.operators := hright ▸ List.mem_cons_self
      exact .inl (source_eq_of_beq (mem_scan_of_operator (.inr he) ho)
        (mem_scan_of_operator (.inr hf) hp) hop)
  · rintro (rfl | ⟨-, -, count, x, y, rfl, rfl, hxy⟩)
    · rw [scan_fst_congr log' log, he] at hf
      cases hf
      exact beq_self_of_parsed (.inr he)
    · exact wrapped_beq_wrapped.mpr ⟨rfl, hxy⟩

theorem error_beq_iff {d d' : ParseError} (hd : parseComplete (scan log a).1 = .error d)
    (hd' : parseComplete (scan log' b).1 = .error d') : (d == d') = true ↔ a = b := by
  have hparts {d d' : ParseError} : (d == d') = true ↔ d.cause = d'.cause ∧ (d.token == d'.token) = true := by
    change (decide (d.cause = d'.cause) && d.token == d'.token) = true ↔ _
    rw [Bool.and_eq_true, decide_eq_true_eq]
  rw [hparts]
  constructor
  · rintro ⟨-, htoken⟩
    exact source_eq_of_beq (mem_scan_of_error hd) (mem_scan_of_error hd') htoken
  · rintro rfl
    rw [scan_fst_congr log' log, hd] at hd'
    cases hd'
    exact ⟨rfl, beq_self_of_mem_scan (mem_scan_of_error hd)⟩

end Scans

-- What was read from two sources is never the same unless they are the same text. Only a literal
-- with nothing but groupings around it has kept nothing of its source.
theorem sameness_across_sources (log log' : Log) (a b : String) :
    (∀ e f, parseComplete (scan log a).1 = .ok e → parseComplete (scan log' b).1 = .ok f →
      ((e == f) = true ↔ a = b ∨ e.operators = [] ∧ f.operators = [] ∧
        ∃ count x y, e = wrapped count x ∧ f = wrapped count y ∧ (x == y) = true)) ∧
    (∀ e, parse (scan log a).1 = .ok e ∨ parseComplete (scan log a).1 = .ok e → (e == e) = true) ∧
    (∀ d d', parseComplete (scan log a).1 = .error d → parseComplete (scan log' b).1 = .error d' →
      ((d == d') = true ↔ a = b)) ∧
    (a ≠ b → ∀ t ∈ (scan log a).1, ∀ u ∈ (scan log' b).1, (t == u) = false) ∧
    (∀ (i j : Nat) t u, (scan log a).1[i]? = some t → (scan log a).1[j]? = some u →
      ((t == u) = true ↔ i = j)) ∧
    (∀ t ∈ (scan log a).1, ∀ value, t.data = .number value → value.isNaN = false) := by
  refine ⟨fun e f he hf => beq_iff_of_parsed he hf, fun e he => beq_self_of_parsed he,
    fun d d' hd hd' => error_beq_iff hd hd', ?_, ?_, fun t ht => isNaN_of_mem_scan ht⟩
  · intro hne t ht u hu
    rw [Bool.eq_false_iff]
    exact fun h => hne (source_eq_of_beq ht hu h)
  · intro i j t u ht hu
    constructor
    · exact index_eq_of_beq ht hu
    · rintro rfl
      cases ht.symm.trans hu
      exact beq_self_of_mem_scan (List.mem_of_getElem? ht)

-- Without an operator only the groupings and the literal count, and with one the blanks do too.
example :
    (parseComplete (scan .empty "(1.0)").1).toOption == (parseComplete (scan .empty "( 01 )").1).toOption ∧
      ¬ (parseComplete (scan .empty "-1").1).toOption == (parseComplete (scan .empty "- 1").1).toOption := by
  decide +kernel

end Lox
