import Lox.Proofs.Lexical.Spelling
import Mathlib.Data.List.TakeWhile

namespace Lox.Lexical

open Lox.Number

-- A piece of text that is an element ends in front of other text, so that no longer front of the
-- whole is an element.
def Ends (piece rest : List Char) : Element → Prop
  | .comment => ∀ c ∈ rest.head?, c = '\n'
  | .token (.symbol s) =>
    (rest.head? = some '=' → s.withEqual? = none) ∧ (s = .slash → rest.head? ≠ some '/')
  | .token (.number _) =>
    (∀ c ∈ rest.head?, c.isDigit = false) ∧ ('.' ∈ piece ∨ Element.fraction rest = [])
  | .token (.keyword _) | .token .identifier => ∀ c ∈ rest.head?, Element.isWordPart c = false
  | _ => True

theorem takeWhile_append_of_stop {test : Char → Bool} {inner rest : List Char}
    (hinner : ∀ c ∈ inner, test c = true) (hrest : ∀ c ∈ rest.head?, test c = false) :
    (inner ++ rest).takeWhile test = inner := by
  have hstop : rest.takeWhile test = [] := by
    cases rest with
    | nil => rfl
    | cons c rest => simp [hrest c rfl]
  rw [List.takeWhile_append_of_pos hinner, hstop, List.append_nil]

-- A text goes on with a test up to some place, where the test fails or the text is at its end.
theorem exists_takeWhile (test : Char → Bool) (text : List Char) :
    ∃ inner rest, text = inner ++ rest ∧ (∀ c ∈ inner, test c = true) ∧
      ∀ c ∈ rest.head?, test c = false := by
  refine ⟨text.takeWhile test, text.dropWhile test, List.takeWhile_append_dropWhile.symm,
    fun c hc => List.mem_takeWhile_imp hc, ?_⟩
  intro c hc
  have hnot := List.head?_dropWhile_not test text
  rw [hc] at hnot
  simpa using hnot

theorem length_le_takeWhile {test : Char → Bool} {inner : List Char}
    (hinner : ∀ c ∈ inner, test c = true) (rest : List Char) :
    inner.length ≤ ((inner ++ rest).takeWhile test).length := by
  rw [List.takeWhile_append_of_pos hinner, List.length_append]
  omega

theorem decide_ne_of_notMem {c : Char} {inner : List Char} (h : c ∉ inner) :
    ∀ d ∈ inner, decide (d ≠ c) = true := by
  intro d hd
  simpa using ne_of_mem_of_not_mem hd h

section Words

variable {letter : Char} {more rest : List Char}

theorem ofWord_keyword {k : Keyword} (hmore : ∀ c ∈ more, Element.isWordPart c = true)
    (hrest : ∀ c ∈ rest.head?, Element.isWordPart c = false)
    (hk : Keyword.ofText? (String.ofList (letter :: more)) = some k) :
    Element.ofWord letter (more ++ rest) = (.token (.keyword k), more.length) := by
  have htake := takeWhile_append_of_stop hmore hrest
  simp only [Element.ofWord, htake, hk]

theorem ofWord_identifier (hmore : ∀ c ∈ more, Element.isWordPart c = true)
    (hrest : ∀ c ∈ rest.head?, Element.isWordPart c = false)
    (hnone : Keyword.ofText? (String.ofList (letter :: more)) = none) :
    Element.ofWord letter (more ++ rest) = (.token .identifier, more.length) := by
  have htake := takeWhile_append_of_stop hmore hrest
  simp only [Element.ofWord, htake, hnone]

end Words

theorem ofText?_eq_none {word : List Char} (h : ∀ k : Keyword, k.text.toList ≠ word) :
    Keyword.ofText? (String.ofList word) = none := by
  cases hk : Keyword.ofText? (String.ofList word) with
  | none => rfl
  | some k =>
    have htext := Keyword.text_of_ofText? hk
    exact absurd (by rw [htext, String.toList_ofList]) (h k)

-- The digits of a number end in front of the first other character. What comes there decides about
-- the digits behind a point.
theorem ofNumber_append {digit : Char} {digits rest : List Char}
    (hdigits : ∀ d ∈ digits, d.isDigit = true) (hrest : ∀ c ∈ rest.head?, c.isDigit = false) :
    Element.ofNumber digit (digits ++ rest) =
      (.token (.number (Decimal.ofDigits (digit :: digits) (Element.fraction rest)).toBinary64),
        digits.length +
          if (Element.fraction rest).isEmpty then 0 else (Element.fraction rest).length + 1) := by
  have htake := takeWhile_append_of_stop hdigits hrest
  simp only [Element.ofNumber, htake, List.drop_left]

theorem ofString_append {inner : List Char} (hinner : '"' ∉ inner) (rest : List Char) :
    Element.ofString (inner ++ '"' :: rest) =
      (.token (.str (String.ofList inner)), inner.length + 1) := by
  have hplain := decide_ne_of_notMem hinner
  have hstop : ∀ d ∈ ('"' :: rest).head?, (decide (d ≠ '"')) = false := by simp
  have htake := takeWhile_append_of_stop hplain hstop
  simp only [Element.ofString, htake]
  simp

theorem ofString_unterminated {text : List Char} (htext : '"' ∉ text) :
    Element.ofString text = (.unterminated, text.length) := by
  have hplain := decide_ne_of_notMem htext
  have htake : text.takeWhile (fun d => decide (d ≠ '"')) = text :=
    List.takeWhile_eq_self_iff.mpr hplain
  simp only [Element.ofString, htake]
  simp

theorem mem_of_digits {d c : Char} {digits : List Char} (h : ∀ d ∈ digits, d.isDigit = true)
    (hd : d ∈ digits) (hc : c.isDigit = false) : d ≠ c := by
  rintro rfl
  rw [h d hd] at hc
  cases hc

section Symbols

variable {c : Char} {s base : Symbol} {rest : List Char}

theorem front_single (hs : Symbol.ofChar? c = some s)
    (hequal : rest.head? = some '=' → s.withEqual? = none)
    (hslash : s = .slash → rest.head? ≠ some '/') :
    Element.front c rest = (.token (.symbol s), 0) := by
  have hcomment : ¬ (c = '/' ∧ rest.head? = some '/') := by
    rintro ⟨rfl, hhead⟩
    cases hs
    exact hslash rfl hhead
  rw [front_symbol _ hs hcomment, Element.ofSymbol]
  split
  · rename_i joined hhead hjoin
    rw [hequal hhead] at hjoin
    cases hjoin
  · rfl

theorem front_joined (hbase : Symbol.ofChar? c = some base) (hjoin : base.withEqual? = some s)
    (rest : List Char) : Element.front c ('=' :: rest) = (.token (.symbol s), 1) := by
  rw [front_symbol _ hbase (by simp)]
  simp [Element.ofSymbol, hjoin]

end Symbols

theorem no_newline_of_comment {body : List Char} (hbody : '\n' ∉ body) :
    ∀ d ∈ '/' :: body, decide (d ≠ '\n') = true := by
  apply decide_ne_of_notMem
  simp [hbody]

-- A number without a point ends only where there is no point with digits behind it.
theorem fraction_eq_nil_of_ends {digits rest : List Char} {value : Binary64}
    (hdigits : ∀ d ∈ digits, d.isDigit = true) (hends : Ends digits rest (.token (.number value))) :
    Element.fraction rest = [] := by
  apply hends.2.resolve_left
  intro hmem
  exact mem_of_digits hdigits hmem (by decide) rfl

-- An element is read as a whole, and nothing of what it ends in front of.
theorem front_append {c : Char} {inner rest : List Char} {element : Element}
    (h : Spells (c :: inner) element) (hends : Ends (c :: inner) rest element) :
    Element.front c (inner ++ rest) = (element, inner.length) := by
  generalize htext : c :: inner = text at h hends
  cases h with
  | blank hc =>
    cases htext
    exact front_blank _ (isBlank_iff.mpr hc)
  | @comment body hbody =>
    cases htext
    have hinner := no_newline_of_comment hbody
    have hstop : ∀ d ∈ rest.head?, (decide (d ≠ '\n')) = false := by
      intro d hd
      simpa using hends d hd
    have htake := takeWhile_append_of_stop hinner hstop
    rw [List.cons_append, front_comment, ← List.cons_append, Element.ofComment]
    simp only [htake]
  | symbol s =>
    obtain ⟨hequal, hslash⟩ := hends
    obtain ⟨d, hd, hs⟩ | ⟨d, base, hd, hbase, hjoin⟩ := spelling_of_symbol s
    · rw [hd] at htext
      cases htext
      exact front_single hs hequal hslash
    · rw [hd] at htext
      cases htext
      exact front_joined hbase hjoin rest
  | @string inner hinner =>
    cases htext
    rw [front_quote, List.append_assoc, List.singleton_append, ofString_append hinner]
    simp
  | @whole digit digits hdigits =>
    cases htext
    have hnone := fraction_eq_nil_of_ends hdigits hends
    rw [front_digit _ (hdigits c (by simp)),
      ofNumber_append (fun d hd => hdigits d (by simp [hd])) hends.1, hnone]
    rfl
  | @fraction digit first digits places hdigits hplaces =>
    cases htext
    have hfraction : Element.fraction ('.' :: first :: places ++ rest) = first :: places :=
      takeWhile_append_of_stop hplaces hends.1
    rw [front_digit _ (hdigits c (by simp)), List.append_assoc,
      ofNumber_append (fun d hd => hdigits d (by simp [hd])) (by simp), hfraction]
    simp
  | keyword k =>
    obtain ⟨letter, more, hk, hletter, hmore⟩ := spelling_of_keyword k
    rw [hk] at htext
    cases htext
    have hword : Keyword.ofText? (String.ofList (c :: inner)) = some k := by
      rw [← hk, String.ofList_toList, Keyword.ofText?_text]
    rw [front_wordStart _ hletter, ofWord_keyword hmore hends hword]
  | @identifier letter more hletter hmore hnone =>
    cases htext
    have hparts : ∀ d ∈ inner, Element.isWordPart d = true :=
      fun d hd => isWordPart_iff.mpr (hmore d hd)
    rw [front_wordStart _ (isWordStart_iff.mpr hletter),
      ofWord_identifier hparts hends (ofText?_eq_none hnone)]

theorem ends_nil {piece : List Char} {element : Element} (h : Spells piece element) :
    Ends piece [] element := by
  cases h <;> simp [Ends, Element.fraction]

-- A text has digits behind a point unless something else comes there.
theorem fraction_eq_nil_iff {rest : List Char} :
    Element.fraction rest = [] ↔
      ∀ digits, rest = '.' :: digits → ∀ d ∈ digits.head?, d.isDigit = false := by
  constructor
  · rintro h digits rfl d hd
    obtain ⟨more, rfl⟩ := List.head?_eq_some_iff.mp hd
    change (d :: more).takeWhile Char.isDigit = [] at h
    simpa [List.takeWhile_cons] using h
  · intro h
    unfold Element.fraction
    split
    · rename_i digits
      have hstop := h digits rfl
      exact takeWhile_append_of_stop (List.forall_mem_nil _) hstop
    · rfl

theorem fraction_eq_nil_of_head {rest : List Char} (h : rest.head? ≠ some '.') :
    Element.fraction rest = [] := by
  refine fraction_eq_nil_iff.mpr ?_
  rintro digits rfl
  exact absurd rfl h

theorem plain_of_blank {c : Char} (h : c ∈ blanks) :
    c.isDigit = false ∧ Element.isWordPart c = false := by
  simp only [blanks, List.mem_cons, List.not_mem_nil, or_false] at h
  rcases h with rfl | rfl | rfl | rfl <;> decide

-- Where a token ends shows in the next character, and for a number in the digits behind a point.
-- A blank there is no more to any token than the end of the text.
theorem Ends.of_rest {piece rest other : List Char} {data : TokenData}
    (h : Ends piece rest (.token data))
    (hhead : ∀ c ∈ other.head?, c ∈ rest.head? ∨ c ∈ blanks)
    (hfraction : Element.fraction rest = [] → Element.fraction other = []) :
    Ends piece other (.token data) := by
  have hstop {test : Char → Bool} (hrest : ∀ c ∈ rest.head?, test c = false)
      (hblank : ∀ c ∈ blanks, test c = false) : ∀ c ∈ other.head?, test c = false := by
    intro c hc
    exact (hhead c hc).elim (hrest c) (hblank c)
  cases data with
  | symbol s =>
    obtain ⟨hequal, hslash⟩ := h
    refine ⟨fun hmem => ?_, fun hs hmem => ?_⟩
    · exact hequal ((hhead '=' hmem).resolve_right (by decide))
    · exact hslash hs ((hhead '/' hmem).resolve_right (by decide))
  | number value =>
    exact ⟨hstop h.1 fun c hc => (plain_of_blank hc).1, h.2.imp_right hfraction⟩
  | keyword | identifier => exact hstop h fun c hc => (plain_of_blank hc).2
  | str | eof => trivial

theorem front_of_spells {c : Char} {inner : List Char} {element : Element}
    (h : Spells (c :: inner) element) : Element.front c inner = (element, inner.length) := by
  have hfront := front_append h (ends_nil h)
  rwa [List.append_nil] at hfront

-- No front of a text that is an element is longer than the one that is read.
theorem length_le_front {c : Char} {inner : List Char} {element : Element}
    (h : Spells (c :: inner) element) (rest : List Char) :
    inner.length ≤ (Element.front c (inner ++ rest)).2 := by
  generalize htext : c :: inner = text at h
  cases h with
  | blank hc =>
    cases htext
    exact Nat.zero_le _
  | @comment body hbody =>
    cases htext
    have hinner := no_newline_of_comment hbody
    rw [List.cons_append, front_comment, ← List.cons_append]
    exact length_le_takeWhile hinner rest
  | symbol s =>
    obtain ⟨d, hd, hs⟩ | ⟨d, base, hd, hbase, hjoin⟩ := spelling_of_symbol s
    · rw [hd] at htext
      cases htext
      exact Nat.zero_le _
    · rw [hd] at htext
      cases htext
      have hfront := front_joined hbase hjoin rest
      rw [List.singleton_append, hfront]
      exact Nat.le_refl 1
  | @string inner hinner =>
    cases htext
    rw [front_quote, List.append_assoc, List.singleton_append, ofString_append hinner]
    simp
  | @whole digit digits hdigits =>
    cases htext
    have hle := length_le_takeWhile (fun d hd => hdigits d (List.mem_cons_of_mem _ hd)) rest
    rw [front_digit _ (hdigits c (by simp)), Element.ofNumber]
    exact Nat.le_trans hle (Nat.le_add_right _ _)
  | @fraction digit first digits places hdigits hplaces =>
    cases htext
    have hle : (first :: places).length ≤
        (Element.fraction ('.' :: first :: places ++ rest)).length :=
      length_le_takeWhile hplaces rest
    rw [front_digit _ (hdigits c (by simp)), List.append_assoc,
      ofNumber_append (fun d hd => hdigits d (by simp [hd])) (by simp)]
    split
    · rename_i hempty
      rw [List.isEmpty_iff.mp hempty] at hle
      simp at hle
    · simp only [List.length_append, List.length_cons] at hle ⊢
      omega
  | keyword k =>
    obtain ⟨letter, more, hk, hletter, hmore⟩ := spelling_of_keyword k
    rw [hk] at htext
    cases htext
    rw [front_wordStart _ hletter]
    exact length_le_takeWhile hmore rest
  | @identifier letter more hletter hmore hnone =>
    cases htext
    rw [front_wordStart _ (isWordStart_iff.mpr hletter)]
    exact length_le_takeWhile (fun d hd => isWordPart_iff.mpr (hmore d hd)) rest

end Lox.Lexical
