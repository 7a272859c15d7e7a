import Lox.Proofs.Grammar.Longest
import Lox.Proofs.Grammar.Prefix
import Lox.Proofs.Run.Independence

namespace Lox

open Lox.Expr Lox.Grammar Lox.Number

namespace Number

theorem unbroken_toDigits (n : Nat) : Unbroken (Nat.toDigits 10 n) := by
  intro c hc hmem
  have hdigit := Nat.isDigit_of_mem_toDigits (by decide) (by decide) hc
  simp only [List.mem_cons, List.not_mem_nil, or_false] at hmem
  rcases hmem with rfl | rfl | rfl <;> revert hdigit <;> decide

theorem Decimal.unbroken_paddedDigits (width n : Nat) : Unbroken (paddedDigits width n) := by
  refine Unbroken.append ?_ (unbroken_toDigits n)
  intro c hc
  rw [List.eq_of_mem_replicate hc]
  decide

theorem Decimal.unbroken_text (d : Decimal) : Unbroken d.text := by
  have hwhole := unbroken_toDigits (d.coefficient / Nat.pow 10 d.places)
  unfold Decimal.text
  split
  · exact hwhole
  · exact hwhole.append (.cons (by decide) (unbroken_paddedDigits _ _))

theorem Binary64.unbroken_text (x : Binary64) : Unbroken x.text.toList := by
  have hdigits : Unbroken (if x.isInfinite then ['i', 'n', 'f'] else x.shortestDecimal.text) := by
    split
    · decide
    · exact Decimal.unbroken_text _
  unfold Binary64.text
  split
  · decide
  · rw [String.toList_ofList]
    split
    · exact .cons (by decide) hdigits
    · exact hdigits

end Number

-- Only a string can have spaces or parentheses in it.
theorem Literal.unbroken_text {value : Literal}
    (h : ∀ text, value = .str text → Unbroken text.toList) : Unbroken value.text.toList := by
  cases value with
  | number value => exact Binary64.unbroken_text value
  | str text => exact h text rfl
  | bool value => cases value <;> decide
  | nil => decide

theorem exists_derives {tokens : List Token} {e : Expr}
    (h : parse tokens = .ok e ∨ parseComplete tokens = .ok e) :
    ∃ used, used ⊆ tokens ∧ Derives .expression used e := by
  rcases h with h | h
  · obtain ⟨length, h⟩ := parse_eq_ok_iff_endsAt.mp h
    exact ⟨tokens.take length, List.take_subset length tokens, h.derives⟩
  · exact ⟨_, List.takeWhile_subset _, (parseComplete_eq_ok_iff.mp h).1⟩

theorem readable_of_scan {log : Log} {source : String} {e : Expr}
    (h : parse (scan log source).1 = .ok e ∨ parseComplete (scan log source).1 = .ok e)
    (hstrings : ∀ text, .str text ∈ e.leaves → Unbroken text.toList) : Readable e := by
  obtain ⟨used, hused, hderives⟩ := exists_derives h
  constructor
  · intro o ho
    rw [(operators_and_leaves_of_derives hderives).1, List.mem_filter] at ho
    obtain ⟨hmem, hoperator⟩ := ho
    obtain ⟨s, hs⟩ := exists_symbol_of_isOperator hoperator
    have hkind : o.kind = .symbol s := by rw [Token.kind, hs, TokenData.kind]
    rw [(isOperator_of_kind hkind).1] at hoperator
    exact ⟨s, hoperator, hkind, lexeme_of_symbol (hused hmem) hs⟩
  · intro value hvalue
    apply Literal.unbroken_text
    rintro text rfl
    exact hstrings text hvalue

-- The printed text of a tree shows its shape without ambiguity, and nothing but its shape.
theorem text_eq_iff_sameShape {log log' : Log} {a b : String} {e f : Expr}
    (he : parse (scan log a).1 = .ok e ∨ parseComplete (scan log a).1 = .ok e)
    (hf : parse (scan log' b).1 = .ok f ∨ parseComplete (scan log' b).1 = .ok f)
    (hstrings : ∀ text, .str text ∈ e.leaves ++ f.leaves → Unbroken text.toList) :
    e.text = f.text ↔ SameShape e f := by
  have hread : Readable e :=
    readable_of_scan he fun text h => hstrings text (List.mem_append_left _ h)
  have hread' : Readable f :=
    readable_of_scan hf fun text h => hstrings text (List.mem_append_right _ h)
  exact text_eq_iff_of_readable hread hread'

theorem exists_of_printed {tokens : List Token} {text : String} {leaves : List String}
    (h : (parseComplete tokens).toOption.map (fun e => (e.text, e.leaves.map Literal.text)) =
      some (text, leaves)) :
    ∃ e, parseComplete tokens = .ok e ∧ e.text = text ∧ e.leaves.map Literal.text = leaves := by
  cases hparse : parseComplete tokens with
  | error error =>
    rw [hparse] at h
    cases h
  | ok e =>
    rw [hparse] at h
    cases h
    exact ⟨e, rfl, rfl, rfl⟩

-- The operand on the right is printed as nothing, and still there is no other way to read it.
theorem text_eq_iff_sameShape_empty :
    ∃ e f, parseComplete (scan .empty "1.0 - \"\"").1 = .ok e ∧
      parseComplete (scan .empty "01-\"\"").1 = .ok f ∧
      (∀ text, .str text ∈ e.leaves ++ f.leaves → Unbroken text.toList) ∧
      e.text = "(- 1 )" ∧ f.text = "(- 1 )" ∧ SameShape e f := by
  have ha : (parseComplete (scan .empty "1.0 - \"\"").1).toOption.map
      (fun e => (e.text, e.leaves.map Literal.text)) = some ("(- 1 )", ["1", ""]) := by
    decide +kernel
  have hb : (parseComplete (scan .empty "01-\"\"").1).toOption.map
      (fun e => (e.text, e.leaves.map Literal.text)) = some ("(- 1 )", ["1", ""]) := by
    decide +kernel
  obtain ⟨e, he, htext, hleaves⟩ := exists_of_printed ha
  obtain ⟨f, hf, htext', hleaves'⟩ := exists_of_printed hb
  have hstrings : ∀ text, .str text ∈ e.leaves ++ f.leaves → Unbroken text.toList := by
    intro text h
    have hmem : text ∈ (e.leaves ++ f.leaves).map Literal.text := List.mem_map_of_mem h
    have hall : ∀ text ∈ ["1", "", "1", ""], Unbroken text.toList := by decide
    rw [List.map_append, hleaves, hleaves'] at hmem
    exact hall text hmem
  have hshape := (text_eq_iff_sameShape (.inr he) (.inr hf) hstrings).mp (htext.trans htext'.symm)
  exact ⟨e, f, he, hf, hstrings, htext, htext', hshape⟩

-- One string with a space in it is printed like two strings.
example : (parseComplete (scan .empty "-\"a b\"").1).toOption.map Expr.text = some "(- a b)" ∧
    (parseComplete (scan .empty "\"a\" - \"b\"").1).toOption.map Expr.text = some "(- a b)" := by
  decide +kernel

end Lox
