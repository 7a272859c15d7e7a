import Lox.Proofs.Guarded.Reader
import Lox.Proofs.Lexical.Items

namespace Lox.Guarded

open Lox.Number Lox.Text Lox.Lexical

section Moves

variable {source : String} {front inner rest : List Char} {c : Char}

theorem peek?_behind (h : source.toList = front ++ rest) :
    (Position.behind source front).peek? = rest.head? := by
  rw [Position.peek?, Position.rest_behind h]

theorem skipWhile_behind {test : Char → Bool} (h : source.toList = front ++ (inner ++ rest))
    (hinner : ∀ d ∈ inner, test d = true) (hrest : ∀ d ∈ rest.head?, test d = false) :
    (Position.behind source front).skipWhile test = .behind source (front ++ inner) := by
  rw [Position.skipWhile, Position.rest_behind h, takeWhile_append_of_stop hinner hrest,
    Position.skip_behind h]

theorem nextIf_behind (h : source.toList = front ++ c :: rest) :
    (Position.behind source front).nextIf c = (true, .behind source (front ++ [c])) := by
  have hpeek : (Position.behind source front).peek? = some c := peek?_behind h
  rw [Position.nextIf, if_pos hpeek, Position.step_behind h]

theorem nextIf_behind_of_ne (h : source.toList = front ++ rest) (hc : rest.head? ≠ some c) :
    (Position.behind source front).nextIf c = (false, .behind source front) := by
  rw [Position.nextIf, if_neg ((peek?_behind h).symm ▸ hc)]

end Moves

section Readers

variable {source : String} {front inner rest : List Char} {c : Char}

-- What an element behind a front of a source yields, and the place behind it.
def taken (source : String) (front text : List Char) (element : Element) : Option Item × Position :=
  let span := Span.behind source front text
  (element.item? span.start span.stop, span.stop)

theorem emit_behind (data : TokenData) (source : String) (front text : List Char) :
    emit data (.behind source front) (.behind source (front ++ text)) =
      .ok (taken source front text (.token data)) := by
  rw [emit, span_behind]
  rfl

theorem symbol_single {s : Symbol} (h : source.toList = front ++ c :: rest)
    (hequal : rest.head? = some '=' → s.withEqual? = none) :
    symbol s (.behind source front) (.behind source (front ++ [c])) =
      .ok (taken source front [c] (.token (.symbol s))) := by
  have hrest : source.toList = (front ++ [c]) ++ rest := by rw [h, List.append_cons]
  rw [← emit_behind]
  unfold symbol
  split
  · rename_i joined hjoin
    have hnot : rest.head? ≠ some '=' := by
      intro hhead
      rw [hequal hhead] at hjoin
      cases hjoin
    rw [nextIf_behind_of_ne hrest hnot]
    rfl
  · rfl

theorem symbol_joined {base s : Symbol} (h : source.toList = front ++ c :: '=' :: rest)
    (hjoin : base.withEqual? = some s) :
    symbol base (.behind source front) (.behind source (front ++ [c])) =
      .ok (taken source front [c, '='] (.token (.symbol s))) := by
  have hrest : source.toList = (front ++ [c]) ++ '=' :: rest := by rw [h, List.append_cons]
  have hnext := nextIf_behind hrest
  rw [List.append_assoc, List.singleton_append] at hnext
  rw [← emit_behind, symbol, hjoin]
  simp only [hnext, if_true]

theorem slash_single (h : source.toList = front ++ '/' :: rest) (hslash : rest.head? ≠ some '/') :
    slash (.behind source front) (.behind source (front ++ ['/'])) =
      .ok (taken source front ['/'] (.token (.symbol .slash))) := by
  have hrest : source.toList = (front ++ ['/']) ++ rest := by rw [h, List.append_cons]
  rw [← emit_behind, slash, nextIf_behind_of_ne hrest hslash]
  rfl

theorem slash_comment {body : List Char} (h : source.toList = front ++ '/' :: '/' :: (body ++ rest))
    (hbody : '\n' ∉ body) (hrest : ∀ d ∈ rest.head?, d = '\n') :
    slash (.behind source front) (.behind source (front ++ ['/'])) =
      .ok (taken source front ('/' :: '/' :: body) .comment) := by
  have hsecond : source.toList = (front ++ ['/']) ++ '/' :: (body ++ rest) := by
    rw [h, List.append_cons]
  have hbehind : source.toList = (front ++ ['/'] ++ ['/']) ++ (body ++ rest) := by
    rw [hsecond, List.append_cons]
  have hend : ∀ d ∈ rest.head?, decide (d ≠ '\n') = false := by
    intro d hd
    simpa using hrest d hd
  have hskip := skipWhile_behind hbehind (decide_ne_of_notMem hbody) hend
  rw [slash, nextIf_behind hsecond]
  simp only [if_true, hskip]
  simp [taken, Span.behind, Element.item?]

-- The two quotes are one byte each, so that the text between them is cut out of the lexeme.
theorem slice_quoted (inner : List Char) :
    slice ('"' :: (inner ++ ['"'])) 1 (byteLength ('"' :: (inner ++ ['"'])) - 1) = .ok inner := by
  have hstop : byteLength (['"'] ++ inner) = byteLength ('"' :: (inner ++ ['"'])) - 1 := by
    rw [← List.cons_append, byteLength_append ('"' :: inner)]
    exact (Nat.add_sub_cancel _ _).symm
  exact slice_eq_ok_iff.mpr ⟨['"'], ['"'], rfl, rfl, hstop⟩

theorem string_closed (h : source.toList = front ++ '"' :: (inner ++ '"' :: rest))
    (hinner : '"' ∉ inner) :
    string (.behind source front) (.behind source (front ++ ['"'])) =
      .ok (taken source front ('"' :: (inner ++ ['"'])) (.token (.str (String.ofList inner)))) := by
  have hfirst : source.toList = (front ++ ['"']) ++ (inner ++ '"' :: rest) := by
    rw [h, List.append_cons]
  have hlast : source.toList = (front ++ ['"'] ++ inner) ++ '"' :: rest := by
    simp [h]
  have hwhole : source.toList = front ++ ('"' :: (inner ++ ['"']) ++ rest) := by simp [h]
  have hskip := skipWhile_behind hfirst (decide_ne_of_notMem hinner) (by simp)
  have hnext := nextIf_behind hlast
  have hstop : front ++ ['"'] ++ inner ++ ['"'] = front ++ '"' :: (inner ++ ['"']) := by simp
  rw [hstop] at hnext
  rw [← emit_behind, string, hskip, hnext]
  simp only [if_true, lexeme_behind hwhole, bind, Except.bind, String.toList_ofList,
    ← byteLength_toList, slice_quoted]

theorem string_open (h : source.toList = front ++ '"' :: inner) (hinner : '"' ∉ inner) :
    string (.behind source front) (.behind source (front ++ ['"'])) =
      .ok (taken source front ('"' :: inner) .unterminated) := by
  have hfirst : source.toList = (front ++ ['"']) ++ (inner ++ []) := by simp [h]
  have hend : source.toList = (front ++ ['"'] ++ inner) ++ [] := by simp [h]
  have hskip := skipWhile_behind hfirst (decide_ne_of_notMem hinner) (by simp)
  rw [string, hskip, nextIf_behind_of_ne hend (by simp)]
  simp [taken, Span.behind, Element.item?, pure, Except.pure]

section Numbers

variable {digit first : Char} {digits places : List Char}

theorem peek?_of_fraction_nil (hrest : Element.fraction rest = []) :
    ¬ (rest.head? = some '.' ∧ rest[1]?.any Char.isDigit = true) := by
  rintro ⟨hpoint, hdigit⟩
  obtain ⟨more, rfl⟩ := List.head?_eq_some_iff.mp hpoint
  cases more with
  | nil => cases hdigit
  | cons d more =>
    have hd : d.isDigit = true := hdigit
    simp [Element.fraction, hd] at hrest

theorem numberEnd_whole (h : source.toList = front ++ (digits ++ rest))
    (hdigits : ∀ d ∈ digits, d.isDigit = true) (hrest : ∀ d ∈ rest.head?, d.isDigit = false)
    (hpoint : Element.fraction rest = []) :
    numberEnd (.behind source front) = .behind source (front ++ digits) := by
  have hskip := skipWhile_behind h hdigits hrest
  have hbehind : source.toList = (front ++ digits) ++ rest := by rw [h, List.append_assoc]
  have hplace := Position.rest_behind hbehind
  simp only [numberEnd, hskip, Position.peek?, Position.peekSecond?, hplace,
    if_neg (peek?_of_fraction_nil hpoint)]

theorem numberEnd_fraction
    (h : source.toList = front ++ (digits ++ '.' :: first :: (places ++ rest)))
    (hdigits : ∀ d ∈ digits, d.isDigit = true) (hplaces : ∀ d ∈ first :: places, d.isDigit = true)
    (hrest : ∀ d ∈ rest.head?, d.isDigit = false) :
    numberEnd (.behind source front) =
      .behind source (front ++ (digits ++ '.' :: first :: places)) := by
  have hskip := skipWhile_behind h hdigits (by simp)
  have hpoint : source.toList = (front ++ digits) ++ '.' :: first :: (places ++ rest) := by
    rw [h, List.append_assoc]
  have hbehind : source.toList = (front ++ digits ++ ['.']) ++ (first :: places ++ rest) := by
    simp [h]
  have hstop : front ++ digits ++ ['.'] ++ (first :: places) =
      front ++ (digits ++ '.' :: first :: places) := by simp
  have hfirst : first.isDigit = true := hplaces first List.mem_cons_self
  have hlast := skipWhile_behind hbehind hplaces hrest
  rw [hstop] at hlast
  simp only [numberEnd, hskip, Position.peek?, Position.peekSecond?, Position.rest_behind hpoint]
  rw [if_pos (by simp [hfirst]), Position.step_behind hpoint, hlast]

theorem number_of_end {text : List Char} {d : Decimal} (h : source.toList = front ++ (text ++ rest))
    (hend : numberEnd (.behind source (front ++ [c])) = .behind source (front ++ text))
    (hd : Writes text d) :
    number (.behind source front) (.behind source (front ++ [c])) =
      .ok (taken source front text (.token (.number d.toBinary64))) := by
  have hread := decimal?_eq_some_iff.mpr hd
  rw [← emit_behind, number, hend]
  simp only [lexeme_behind h, bind, Except.bind, String.toList_ofList, hread]

end Numbers

theorem word_behind (h : source.toList = front ++ (c :: inner ++ rest))
    (hinner : ∀ d ∈ inner, Element.isWordPart d = true)
    (hrest : ∀ d ∈ rest.head?, Element.isWordPart d = false) {data : TokenData}
    (hdata : data = (Keyword.ofText? (String.ofList (c :: inner))).elim .identifier .keyword) :
    word (.behind source front) (.behind source (front ++ [c])) =
      .ok (taken source front (c :: inner) (.token data)) := by
  have hfirst : source.toList = (front ++ [c]) ++ (inner ++ rest) := by simp [h]
  have hskip := skipWhile_behind hfirst hinner hrest
  rw [List.append_assoc, List.singleton_append] at hskip
  rw [← emit_behind, word, hskip, hdata]
  simp only [lexeme_behind h, bind, Except.bind]
  cases Keyword.ofText? (String.ofList (c :: inner)) <;> rfl

end Readers

section Dispatch

variable {start current : Position} {c : Char}

theorem ofChar?_eq_none
    (h : Element.isBlank c = true ∨ c = '"' ∨ c.isDigit = true ∨ Element.isWordStart c = true) :
    Symbol.ofChar? c = none := by
  cases hs : Symbol.ofChar? c with
  | none => rfl
  | some s =>
    obtain ⟨hblank, hquote, hdigit, hword⟩ := class_of_ofChar? hs
    simp [hblank, hquote, hdigit, hword] at h

theorem scanToken_blank (h : Element.isBlank c = true) :
    scanToken start c current = .ok (none, current) := by
  rw [scanToken, ofChar?_eq_none (.inl h), if_pos h]

theorem scanToken_quote : scanToken start '"' current = string start current := by
  have hblank : ¬ Element.isBlank '"' = true := by decide
  rw [scanToken, ofChar?_eq_none (.inr (.inl rfl)), if_neg hblank, if_pos rfl]

theorem scanToken_digit (h : c.isDigit = true) :
    scanToken start c current = number start current := by
  obtain ⟨hblank, hquote⟩ := class_of_isDigit h
  rw [scanToken, ofChar?_eq_none (.inr (.inr (.inl h)))]
  simp [hblank, hquote, h]

theorem scanToken_word (h : Element.isWordStart c = true) :
    scanToken start c current = word start current := by
  obtain ⟨hblank, hquote, hdigit⟩ := class_of_isWordStart h
  rw [scanToken, ofChar?_eq_none (.inr (.inr (.inr h)))]
  simp [hblank, hquote, hdigit, h]

theorem scanToken_slash : scanToken start '/' current = slash start current := rfl

theorem scanToken_symbol {s : Symbol} (h : Symbol.ofChar? c = some s) (hs : s ≠ .slash) :
    scanToken start c current = symbol s start current := by
  rw [scanToken, h]
  split <;> simp_all

theorem scanToken_foreign (h : Foreign c) :
    scanToken start c current =
      .ok (some (.fault ⟨.unexpectedCharacter c, current.line⟩), current) := by
  simp [scanToken, h.symbol, h.blank, h.quote, h.digit, h.word]

end Dispatch

section Elements

variable {source : String} {front inner rest : List Char} {c : Char} {element : Element}

-- Reading takes every element as a whole, and no check fails on the way.
theorem scanToken_of_spells (h : source.toList = front ++ (c :: inner ++ rest))
    (hspells : Spells (c :: inner) element) (hends : Ends (c :: inner) rest element) :
    scanToken (.behind source front) c (.behind source (front ++ [c])) =
      .ok (taken source front (c :: inner) element) := by
  generalize htext : c :: inner = text at h hspells hends ⊢
  cases hspells with
  | blank hc =>
    cases htext
    rw [scanToken_blank (isBlank_iff.mpr hc)]
    rfl
  | @comment body hbody =>
    cases htext
    rw [scanToken_slash]
    exact slash_comment h hbody hends
  | symbol s =>
    obtain ⟨hequal, hslash⟩ := hends
    obtain ⟨d, hd, hs⟩ | ⟨d, base, hd, hbase, hjoin⟩ := spelling_of_symbol s
    · rw [hd] at htext h ⊢
      cases htext
      by_cases hsymbol : s = .slash
      · subst hsymbol
        obtain rfl : c = '/' := List.singleton_inj.mp hd.symm
        exact slash_single h (hslash rfl)
      · rw [scanToken_symbol hs hsymbol]
        exact symbol_single h hequal
    · rw [hd] at htext h ⊢
      cases htext
      have hbase' : base ≠ .slash := by
        rintro rfl
        cases hjoin
      rw [scanToken_symbol hbase hbase']
      exact symbol_joined h hjoin
  | @string inner hinner =>
    cases htext
    rw [scanToken_quote]
    exact string_closed (by simpa using h) hinner
  | @whole digit digits hdigits =>
    cases htext
    have hnone := fraction_eq_nil_of_ends hdigits hends
    have hfirst : source.toList = (front ++ [c]) ++ (inner ++ rest) := by simp [h]
    have hend := numberEnd_whole hfirst (fun d hd => hdigits d (by simp [hd])) hends.1 hnone
    rw [List.append_assoc, List.singleton_append] at hend
    rw [scanToken_digit (hdigits c (by simp))]
    exact number_of_end h hend (.whole (by simp) hdigits)
  | @fraction digit first digits places hdigits hplaces =>
    cases htext
    have hfirst : source.toList = (front ++ [c]) ++ (digits ++ '.' :: first :: (places ++ rest)) := by
      simp [h]
    have hend := numberEnd_fraction hfirst (fun d hd => hdigits d (by simp [hd])) hplaces hends.1
    rw [List.append_assoc, List.singleton_append] at hend
    rw [scanToken_digit (hdigits c (by simp))]
    exact number_of_end h hend (.fraction (by simp) hdigits (by simp) hplaces)
  | keyword k =>
    obtain ⟨letter, more, hk, hletter, hmore⟩ := spelling_of_keyword k
    have hword : Keyword.ofText? (String.ofList (letter :: more)) = some k := by
      rw [← hk, String.ofList_toList, Keyword.ofText?_text]
    rw [hk] at htext h ⊢
    cases htext
    rw [scanToken_word hletter]
    exact word_behind h hmore hends (by rw [hword]; rfl)
  | @identifier letter more hletter hmore hnone =>
    cases htext
    have hparts : ∀ d ∈ inner, Element.isWordPart d = true :=
      fun d hd => isWordPart_iff.mpr (hmore d hd)
    rw [scanToken_word (isWordStart_iff.mpr hletter)]
    exact word_behind h hparts hends (by rw [ofText?_eq_none hnone]; rfl)

theorem scanToken_behind {text : List Char} (h : source.toList = front ++ c :: text) :
    let stop := (Position.behind source front).skip ((Element.front c text).2 + 1)
    scanToken (.behind source front) c (.behind source (front ++ [c])) =
      .ok ((Element.front c text).1.item? (.behind source front) stop, stop) := by
  obtain ⟨inner, rest, element, rfl, hspells, hends⟩ | ⟨rfl, hopen⟩ | hforeign := begins_or c text
  · rw [front_append hspells hends, scanToken_of_spells h hspells hends, ← List.length_cons,
      Position.skip_behind h]
    rfl
  · have hwhole : source.toList = front ++ ('"' :: text ++ []) := by simpa using h
    rw [front_quote, ofString_unterminated hopen, scanToken_quote, string_open h hopen,
      ← List.length_cons, Position.skip_behind hwhole]
    rfl
  · rw [hforeign.front_eq, scanToken_foreign hforeign, Position.skip_succ, Position.step_behind h]
    rfl

end Elements

end Lox.Guarded
