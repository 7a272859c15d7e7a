import Lox.Proofs.Lexical.Munch

namespace Lox.Lexical

open Lox.Number

-- A character begins an element together with some of the text behind it.
def Begins (c : Char) (text : List Char) : Prop :=
  ∃ inner rest element, text = inner ++ rest ∧ Spells (c :: inner) element ∧
    Ends (c :: inner) rest element

-- A character with which no element begins, nor a string that is not closed.
structure Foreign (c : Char) : Prop where
  blank : Element.isBlank c = false
  quote : c ≠ '"'
  digit : c.isDigit = false
  word : Element.isWordStart c = false
  symbol : Symbol.ofChar? c = none

theorem Foreign.front_eq {c : Char} (h : Foreign c) (text : List Char) :
    Element.front c text = (.unexpected c, 0) := by
  have hslash : c ≠ '/' := by
    rintro rfl
    cases h.symbol
  simp [Element.front, h.blank, h.quote, h.digit, h.word, h.symbol, hslash]

theorem Foreign.not_spells {c : Char} (h : Foreign c) (inner : List Char) (element : Element) :
    ¬ Spells (c :: inner) element := by
  intro hspells
  have hfront := front_of_spells hspells
  rw [h.front_eq] at hfront
  exact hspells.not_unexpected c (Prod.mk.inj hfront).1.symm

theorem quote_mem_of_spells {inner : List Char} {element : Element}
    (h : Spells ('"' :: inner) element) : '"' ∈ inner := by
  by_contra hnot
  have hfront := front_of_spells h
  rw [front_quote, ofString_unterminated hnot] at hfront
  exact h.not_unterminated (Prod.mk.inj hfront).1.symm

theorem begins_number {digit : Char} (hdigit : digit.isDigit = true) (text : List Char) :
    Begins digit text := by
  obtain ⟨digits, rest, rfl, hdigits, hstop⟩ := exists_takeWhile Char.isDigit text
  have hall : ∀ d ∈ digit :: digits, d.isDigit = true := by
    rintro d (_ | ⟨_, hd⟩)
    · exact hdigit
    · exact hdigits d hd
  cases hplaces : Element.fraction rest with
  | nil => exact ⟨digits, rest, _, rfl, .whole hall, hstop, .inr hplaces⟩
  | cons first places =>
    unfold Element.fraction at hplaces
    split at hplaces
    · rename_i behind
      obtain ⟨places', rest, rfl, hplaces', hstop'⟩ := exists_takeWhile Char.isDigit behind
      rw [takeWhile_append_of_stop hplaces' hstop'] at hplaces
      subst hplaces
      refine ⟨digits ++ '.' :: first :: places, rest, _, by simp, .fraction hall hplaces', hstop', ?_⟩
      exact .inl (by simp)
    · cases hplaces

theorem begins_word {letter : Char} (hletter : Element.isWordStart letter = true)
    (text : List Char) : Begins letter text := by
  obtain ⟨more, rest, rfl, hmore, hstop⟩ := exists_takeWhile Element.isWordPart text
  by_cases hword : ∃ k : Keyword, k.text.toList = letter :: more
  · obtain ⟨k, hk⟩ := hword
    have hspells : Spells (letter :: more) (.token (.keyword k)) := hk ▸ Spells.keyword k
    exact ⟨more, rest, _, rfl, hspells, hstop⟩
  · have hnone : ∀ k : Keyword, k.text.toList ≠ letter :: more := fun k hk => hword ⟨k, hk⟩
    have hparts : ∀ c ∈ more, c.isAlpha = true ∨ c = '_' ∨ c.isDigit = true :=
      fun c hc => isWordPart_iff.mp (hmore c hc)
    exact ⟨more, rest, _, rfl, .identifier (isWordStart_iff.mp hletter) hparts hnone, hstop⟩

theorem begins_comment (text : List Char) : Begins '/' ('/' :: text) := by
  obtain ⟨body, rest, rfl, hbody, hstop⟩ := exists_takeWhile (fun d => decide (d ≠ '\n')) text
  refine ⟨'/' :: body, rest, _, rfl, .comment ?_, ?_⟩
  · intro hmem
    simpa using hbody _ hmem
  · intro c hc
    simpa using hstop c hc

theorem toList_text_of_ofChar? {c : Char} {s : Symbol} (h : Symbol.ofChar? c = some s) :
    s.text.toList = [c] := by
  rw [Symbol.text_of_ofChar? h, String.toList_ofList]

theorem begins_symbol {c : Char} {s : Symbol} (h : Symbol.ofChar? c = some s) (text : List Char)
    (hslash : ¬ (c = '/' ∧ text.head? = some '/')) : Begins c text := by
  have hs := toList_text_of_ofChar? h
  by_cases hequal : text.head? = some '=' ∧ s.withEqual? ≠ none
  · obtain ⟨hhead, hjoin⟩ := hequal
    obtain ⟨joined, hjoined⟩ := Option.ne_none_iff_exists'.mp hjoin
    obtain ⟨rest, rfl⟩ := List.head?_eq_some_iff.mp hhead
    have htext : joined.text.toList = [c, '='] := by
      rw [Symbol.text_of_withEqual? hjoined, String.toList_append, hs]
      rfl
    have hspells : Spells [c, '='] (.token (.symbol joined)) := htext ▸ Spells.symbol joined
    refine ⟨['='], rest, _, rfl, hspells, ?_, ?_⟩
    · intro _
      cases s <;> cases hjoined <;> rfl
    · rintro rfl
      cases s <;> cases hjoined
  · have hspells : Spells [c] (.token (.symbol s)) := hs ▸ Spells.symbol s
    refine ⟨[], text, _, rfl, hspells, ?_, ?_⟩
    · intro hhead
      by_contra hjoin
      exact hequal ⟨hhead, hjoin⟩
    · rintro rfl hhead
      have hc : ['/'] = [c] := hs
      exact hslash ⟨(List.singleton_inj.mp hc).symm, hhead⟩

-- Every text begins with an element, unless its first character is a quote that nothing closes or
-- foreign.
theorem begins_or (c : Char) (text : List Char) :
    Begins c text ∨ (c = '"' ∧ '"' ∉ text) ∨ Foreign c := by
  by_cases hblank : Element.isBlank c = true
  · exact .inl ⟨[], text, .blank, rfl, .blank (isBlank_iff.mp hblank), trivial⟩
  by_cases hquote : c = '"'
  · subst hquote
    by_cases hclosed : '"' ∈ text
    · obtain ⟨inner, rest, rfl, hinner⟩ := List.eq_append_cons_of_mem hclosed
      exact .inl ⟨inner ++ ['"'], rest, _, by simp, .string hinner, trivial⟩
    · exact .inr (.inl ⟨rfl, hclosed⟩)
  by_cases hdigit : c.isDigit = true
  · exact .inl (begins_number hdigit text)
  by_cases hword : Element.isWordStart c = true
  · exact .inl (begins_word hword text)
  by_cases hcomment : c = '/' ∧ text.head? = some '/'
  · obtain ⟨rfl, hhead⟩ := hcomment
    obtain ⟨rest, rfl⟩ := List.head?_eq_some_iff.mp hhead
    exact .inl (begins_comment rest)
  cases hsymbol : Symbol.ofChar? c with
  | some s => exact .inl (begins_symbol hsymbol text hcomment)
  | none =>
    refine .inr (.inr ⟨?_, hquote, ?_, ?_, hsymbol⟩)
    · simpa using hblank
    · simpa using hdigit
    · simpa using hword

end Lox.Lexical
