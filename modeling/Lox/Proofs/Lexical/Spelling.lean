import Lox.Token.Element
import Mathlib.Data.List.Basic

namespace Lox.Lexical

open Lox.Number

def blanks : List Char := [' ', '\r', '\t', '\n']

-- The text of every lexical element that is no fault.
inductive Spells : List Char → Element → Prop where
  | blank {c : Char} : c ∈ blanks → Spells [c] .blank
  | comment {body : List Char} : '\n' ∉ body → Spells ('/' :: '/' :: body) .comment
  | symbol (s : Symbol) : Spells s.text.toList (.token (.symbol s))
  | string {inner : List Char} :
      '"' ∉ inner → Spells ('"' :: (inner ++ ['"'])) (.token (.str (String.ofList inner)))
  | whole {digit : Char} {digits : List Char} :
      (∀ d ∈ digit :: digits, d.isDigit = true) →
      Spells (digit :: digits) (.token (.number (Decimal.ofDigits (digit :: digits) []).toBinary64))
  | fraction {digit first : Char} {digits places : List Char} :
      (∀ d ∈ digit :: digits, d.isDigit = true) → (∀ d ∈ first :: places, d.isDigit = true) →
      Spells (digit :: (digits ++ '.' :: first :: places))
        (.token (.number (Decimal.ofDigits (digit :: digits) (first :: places)).toBinary64))
  | keyword (k : Keyword) : Spells k.text.toList (.token (.keyword k))
  | identifier {letter : Char} {more : List Char} :
      (letter.isAlpha = true ∨ letter = '_') →
      (∀ c ∈ more, c.isAlpha = true ∨ c = '_' ∨ c.isDigit = true) →
      (∀ k : Keyword, k.text.toList ≠ letter :: more) →
      Spells (letter :: more) (.token .identifier)

section Faults

variable {piece : List Char} {element : Element}

theorem Spells.ne_nil (h : Spells piece element) : piece ≠ [] := by
  cases h with
  | symbol s => cases s <;> decide
  | keyword k => cases k <;> decide
  | _ => exact List.cons_ne_nil _ _

theorem Spells.not_unterminated (h : Spells piece element) : element ≠ .unterminated := by
  cases h <;> exact Element.noConfusion

theorem Spells.not_unexpected (h : Spells piece element) (c : Char) : element ≠ .unexpected c := by
  cases h <;> exact Element.noConfusion

theorem Spells.not_eof {data : TokenData} (h : Spells piece (.token data)) :
    data.isEof = false := by
  cases h <;> rfl

end Faults

section Classes

theorem isBlank_iff {c : Char} : Element.isBlank c = true ↔ c ∈ blanks := by
  simp [Element.isBlank, blanks, or_assoc]

theorem isWordStart_iff {c : Char} :
    Element.isWordStart c = true ↔ c.isAlpha = true ∨ c = '_' := by
  simp [Element.isWordStart]

theorem isWordPart_iff {c : Char} :
    Element.isWordPart c = true ↔ c.isAlpha = true ∨ c = '_' ∨ c.isDigit = true := by
  simp [Element.isWordPart, Element.isWordStart, or_assoc]

-- The digits lie in front of all letters.
theorem toNat_of_isAlpha {c : Char} (h : c.isAlpha = true) : '9'.toNat < c.toNat := by
  have hupper : '9'.toNat < 'A'.toNat := by decide
  have hlower : '9'.toNat < 'a'.toNat := by decide
  rcases (Bool.or_eq_true _ _).mp h with h | h
  · have hbounds : 'A'.val ≤ c.val ∧ c.val ≤ 'Z'.val := of_decide_eq_true h
    exact Nat.lt_of_lt_of_le hupper (UInt32.le_iff_toNat_le.mp hbounds.1)
  · have hbounds : (decide ('a'.val ≤ c.val) && decide (c.val ≤ 'z'.val)) = true := h
    have hle : 'a'.val ≤ c.val := of_decide_eq_true ((Bool.and_eq_true _ _).mp hbounds).1
    exact Nat.lt_of_lt_of_le hlower (UInt32.le_iff_toNat_le.mp hle)

-- No character begins elements of two sorts, apart from the slash of comments.
theorem class_of_isBlank {c : Char} (h : Element.isBlank c = true) :
    c ≠ '"' ∧ c.isDigit = false ∧ Element.isWordStart c = false := by
  rw [isBlank_iff] at h
  simp only [blanks, List.mem_cons, List.not_mem_nil, or_false] at h
  rcases h with rfl | rfl | rfl | rfl <;> decide

theorem class_of_isDigit {c : Char} (h : c.isDigit = true) :
    Element.isBlank c = false ∧ c ≠ '"' := by
  constructor
  · by_contra hblank
    rw [Bool.not_eq_false] at hblank
    cases h.symm.trans (class_of_isBlank hblank).2.1
  · rintro rfl
    revert h
    decide

theorem class_of_isWordStart {c : Char} (h : Element.isWordStart c = true) :
    Element.isBlank c = false ∧ c ≠ '"' ∧ c.isDigit = false := by
  refine ⟨?_, ?_, ?_⟩
  · by_contra hblank
    rw [Bool.not_eq_false] at hblank
    cases h.symm.trans (class_of_isBlank hblank).2.2
  · rintro rfl
    revert h
    decide
  · by_contra hdigit
    rw [Bool.not_eq_false] at hdigit
    have hnine := (Char.isDigit_iff_toNat.mp hdigit).2
    rcases isWordStart_iff.mp h with h | rfl
    · have hletter := toNat_of_isAlpha h
      omega
    · revert hdigit
      decide

theorem class_of_ofChar? {c : Char} {s : Symbol} (h : Symbol.ofChar? c = some s) :
    Element.isBlank c = false ∧ c ≠ '"' ∧ c.isDigit = false ∧ Element.isWordStart c = false := by
  unfold Symbol.ofChar? at h
  split at h <;> first | decide | cases h

end Classes

section Front

variable {c : Char} (text : List Char)

theorem front_blank (h : Element.isBlank c = true) : Element.front c text = (.blank, 0) := by
  simp [Element.front, h]

theorem front_quote : Element.front '"' text = Element.ofString text := by
  have hblank : Element.isBlank '"' = false := by decide
  simp [Element.front, hblank]

theorem front_digit (h : c.isDigit = true) : Element.front c text = Element.ofNumber c text := by
  obtain ⟨hblank, hquote⟩ := class_of_isDigit h
  simp [Element.front, hblank, hquote, h]

theorem front_wordStart (h : Element.isWordStart c = true) :
    Element.front c text = Element.ofWord c text := by
  obtain ⟨hblank, hquote, hdigit⟩ := class_of_isWordStart h
  simp [Element.front, hblank, hquote, hdigit, h]

theorem front_comment : Element.front '/' ('/' :: text) = Element.ofComment ('/' :: text) := by
  have hblank : Element.isBlank '/' = false := by decide
  have hdigit : '/'.isDigit = false := by decide
  have hword : Element.isWordStart '/' = false := by decide
  simp [Element.front, hblank, hdigit, hword]

theorem front_symbol {s : Symbol} (h : Symbol.ofChar? c = some s)
    (hslash : ¬ (c = '/' ∧ text.head? = some '/')) :
    Element.front c text = Element.ofSymbol s text := by
  obtain ⟨hblank, hquote, hdigit, hword⟩ := class_of_ofChar? h
  simp [Element.front, hblank, hquote, hdigit, hword, hslash, h]

end Front

-- A symbol is a character, or a character and an equals sign that it can be joined with.
theorem spelling_of_symbol (s : Symbol) :
    (∃ c, s.text.toList = [c] ∧ Symbol.ofChar? c = some s) ∨
    (∃ c base, s.text.toList = [c, '='] ∧ Symbol.ofChar? c = some base ∧
      base.withEqual? = some s) := by
  cases s <;> first | exact .inl ⟨_, rfl, rfl⟩ | exact .inr ⟨_, _, rfl, rfl, rfl⟩

-- A keyword looks like any other word.
theorem spelling_of_keyword (k : Keyword) :
    ∃ letter more, k.text.toList = letter :: more ∧ Element.isWordStart letter = true ∧
      ∀ c ∈ more, Element.isWordPart c = true := by
  cases k <;> exact ⟨_, _, rfl, rfl, List.all_eq_true.mp rfl⟩

end Lox.Lexical
