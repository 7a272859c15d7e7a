import Lox.Proofs.Lexical.Items

namespace Lox.Lexical

open Lox.Text

-- A text that makes a token of its own.
structure Lexeme where
  text : List Char
  data : TokenData
  spelled : Spells text (.token data)

-- What is seen of it in a token: the meaning and the text.
def Lexeme.view (l : Lexeme) : TokenData × String := (l.data, String.ofList l.text)

-- Any mixture of blanks and of comments with the newline behind them.
inductive Gap : List Char → Prop where
  | nil : Gap []
  | blank {c : Char} {rest : List Char} : c ∈ blanks → Gap rest → Gap (c :: rest)
  | comment {body rest : List Char} :
      '\n' ∉ body → Gap rest → Gap ('/' :: '/' :: (body ++ '\n' :: rest))

-- Between two lexemes the first character is a blank.
inductive Separator : List Char → Prop where
  | intro {c : Char} {rest : List Char} :
      c ∈ blanks → Gap rest → Separator (c :: rest)

-- Behind the last lexeme a comment can run to the end.
inductive Trailer : List Char → Prop where
  | nil : Trailer []
  | separator {text : List Char} : Separator text → Trailer text
  | comment {text body : List Char} :
      Separator text → '\n' ∉ body → Trailer (text ++ '/' :: '/' :: body)

-- Lexemes written out behind another one.
inductive Follows : List Lexeme → List Char → Prop where
  | last {text : List Char} : Trailer text → Follows [] text
  | next {separator text : List Char} {l : Lexeme} {lexemes : List Lexeme} :
      Separator separator → Follows lexemes text →
      Follows (l :: lexemes) (separator ++ (l.text ++ text))

-- Lexemes written out to make a source.
inductive Layout : List Lexeme → List Char → Prop where
  | nil {gap text : List Char} : Gap gap → Trailer text → Layout [] (gap ++ text)
  | cons {gap text : List Char} {l : Lexeme} {lexemes : List Lexeme} :
      Gap gap → Follows lexemes text → Layout (l :: lexemes) (gap ++ (l.text ++ text))

theorem Separator.blank_head {separator : List Char} (h : Separator separator)
    (rest : List Char) : ∀ c ∈ (separator ++ rest).head?, c ∈ blanks := by
  obtain ⟨hc, -⟩ := h
  intro d hd
  cases hd
  exact hc

theorem Trailer.blank_head {text : List Char} (h : Trailer text) :
    ∀ c ∈ text.head?, c ∈ blanks := by
  cases h with
  | nil => simp
  | separator h => simpa using h.blank_head []
  | comment h hbody => exact h.blank_head _

theorem Follows.blank_head {lexemes : List Lexeme} {text : List Char} (h : Follows lexemes text) :
    ∀ c ∈ text.head?, c ∈ blanks := by
  cases h with
  | last h => exact h.blank_head
  | next h hrest => exact h.blank_head _

-- No token goes on with a blank.
theorem ends_of_blank_head {piece rest : List Char} {data : TokenData}
    (h : Spells piece (.token data)) (hrest : ∀ c ∈ rest.head?, c ∈ blanks) :
    Ends piece rest (.token data) := by
  refine (ends_nil h).of_rest (fun c hc => .inr (hrest c hc)) fun _ => ?_
  exact fraction_eq_nil_of_head fun hpoint => absurd (hrest '.' hpoint) (by decide)

-- A text that is divided without a fault, and what is seen of the tokens in it.
def Clean (text : List Char) (found : List (TokenData × String)) : Prop :=
  ∃ pieces, Division text pieces ∧ (∀ piece ∈ pieces, Spells piece.text piece.element) ∧
    pieces.filterMap Piece.view? = found

theorem clean_nil : Clean [] [] := ⟨[], .nil, by simp, rfl⟩

theorem Clean.cons {piece rest : List Char} {element : Element} {found : List (TokenData × String)}
    (h : Clean rest found) (hspells : Spells piece element) (hends : Ends piece rest element) :
    Clean (piece ++ rest) ((Piece.view? ⟨piece, element⟩).toList ++ found) := by
  obtain ⟨pieces, hpieces, hall, rfl⟩ := h
  refine ⟨⟨piece, element⟩ :: pieces, .cons (cut_of_ends hspells hends) hpieces, ?_, ?_⟩
  · rintro other (_ | ⟨_, hother⟩)
    · exact hspells
    · exact hall other hother
  · rw [List.filterMap_cons]
    cases Piece.view? ⟨piece, element⟩ <;> rfl

theorem Clean.blank {c : Char} {rest : List Char} {found : List (TokenData × String)}
    (h : Clean rest found) (hc : c ∈ blanks) : Clean (c :: rest) found :=
  h.cons (.blank hc) trivial

theorem Clean.gap {gap rest : List Char} {found : List (TokenData × String)}
    (hgap : Gap gap) (h : Clean rest found) : Clean (gap ++ rest) found := by
  induction hgap with
  | nil => exact h
  | blank hc hgap ih => exact ih.blank hc
  | @comment body gap hbody hgap ih =>
    have hnewline : Clean ('\n' :: (gap ++ rest)) found := ih.blank (by decide)
    have hcomment := hnewline.cons (.comment hbody) (by rintro c ⟨⟩; rfl)
    simpa [Piece.view?] using hcomment

theorem Clean.separator {separator rest : List Char} {found : List (TokenData × String)}
    (hseparator : Separator separator) (h : Clean rest found) :
    Clean (separator ++ rest) found := by
  obtain ⟨hc, hgap⟩ := hseparator
  exact (h.gap hgap).blank hc

theorem Trailer.clean {text : List Char} (h : Trailer text) : Clean text [] := by
  cases h with
  | nil => exact clean_nil
  | separator h =>
    rw [← List.append_nil text]
    exact clean_nil.separator h
  | @comment separator body h hbody =>
    have hcomment : Clean ('/' :: '/' :: body) [] := by
      have hlast := clean_nil.cons (.comment hbody) (ends_nil (.comment hbody))
      rwa [List.append_nil] at hlast
    exact hcomment.separator h

theorem Clean.lexeme {rest : List Char} {found : List (TokenData × String)} (h : Clean rest found)
    (l : Lexeme) (hrest : ∀ c ∈ rest.head?, c ∈ blanks) :
    Clean (l.text ++ rest) (l.view :: found) :=
  h.cons l.spelled (ends_of_blank_head l.spelled hrest)

theorem Follows.clean {lexemes : List Lexeme} {text : List Char} (h : Follows lexemes text) :
    Clean text (lexemes.map Lexeme.view) := by
  induction h with
  | last h => exact h.clean
  | @next separator text l lexemes h hrest ih => exact (ih.lexeme l hrest.blank_head).separator h

theorem Layout.clean {lexemes : List Lexeme} {text : List Char} (h : Layout lexemes text) :
    Clean text (lexemes.map Lexeme.view) := by
  cases h with
  | nil hgap h => exact h.clean.gap hgap
  | @cons gap text l lexemes hgap h => exact (h.clean.lexeme l h.blank_head).gap hgap

-- A source is scanned without a message, and its tokens are these and the end of input.
def ScansTo (source : String) (found : List (TokenData × String)) : Prop :=
  ∀ log, (scan log source).2 = log ∧ (scan log source).1.map view = found ++ [(.eof, "")]

theorem Clean.scansTo {source : String} {found : List (TokenData × String)}
    (h : Clean source.toList found) : ScansTo source found := by
  obtain ⟨pieces, hpieces, hspells, rfl⟩ := h
  intro log
  exact ⟨log_of_division hpieces hspells log, scan_of_division hpieces log⟩

theorem Lexeme.scansTo (l : Lexeme) : ScansTo (String.ofList l.text) [l.view] := by
  have hclean := clean_nil.lexeme l (by simp)
  rw [List.append_nil] at hclean
  apply Clean.scansTo
  rwa [String.toList_ofList]

-- A token found anywhere is a lexeme, or the end of input.
theorem lexeme_of_mem_scan {log : Log} {source : String} {t : Token}
    (h : t ∈ (scan log source).1) : (∃ l : Lexeme, view t = l.view) ∨ view t = (.eof, "") := by
  obtain ⟨pieces, hpieces⟩ := exists_division source.toList
  have hview : view t ∈ pieces.filterMap Piece.view? ++ [(.eof, "")] := by
    rw [← scan_of_division hpieces log]
    exact List.mem_map_of_mem h
  rcases List.mem_append.mp hview with hview | hview
  · obtain ⟨⟨text, element⟩, hmem, hpiece⟩ := List.mem_filterMap.mp hview
    cases element with
    | token data =>
      exact .inl ⟨⟨text, data, hpieces.spells hmem⟩, (Option.some.inj hpiece).symm⟩
    | _ => cases hpiece
  · exact .inr (List.mem_singleton.mp hview)

theorem spells_of_mem_scan {log : Log} {source : String} {t : Token} {data : TokenData}
    (h : t ∈ (scan log source).1) (ht : t.data = data) (hdata : data.isEof = false) :
    Spells t.lexeme.toList (.token data) := by
  subst ht
  obtain ⟨l, hl⟩ | heof := lexeme_of_mem_scan h
  · obtain ⟨hdata, hlexeme⟩ := Prod.mk.inj hl
    rw [hdata, hlexeme, String.toList_ofList]
    exact l.spelled
  · rw [(Prod.mk.inj heof).1] at hdata
    cases hdata

-- Scanning gives back the lexemes that were written out, as they are found in sources of their own.
-- In the same way every token is found again in a source that is only its lexeme.
theorem scan_of_layout {lexemes : List Lexeme} {source : String} (h : Layout lexemes source.toList) :
    ScansTo source (lexemes.map Lexeme.view) ∧
      (∀ l ∈ lexemes, ScansTo (String.ofList l.text) [l.view]) ∧
      ∀ log source t, t ∈ (scan log source).1 →
        ScansTo t.lexeme (if t.isEof then [] else [view t]) := by
  refine ⟨h.clean.scansTo, fun l _ => l.scansTo, ?_⟩
  intro log source t ht
  obtain ⟨l, hl⟩ | heof := lexeme_of_mem_scan ht
  · obtain ⟨hdata, hlexeme⟩ := Prod.mk.inj hl
    have heof : t.isEof = false := by rw [Token.isEof, hdata, l.spelled.not_eof]
    rw [heof, hlexeme, hl]
    exact l.scansTo
  · obtain ⟨hdata, hlexeme⟩ := Prod.mk.inj heof
    have heof : t.isEof = true := by rw [Token.isEof, hdata, TokenData.isEof]
    have hempty : Clean "".toList [] := clean_nil
    rw [heof, hlexeme]
    exact hempty.scansTo

-- A comment between two lexemes and one that runs to the end, while the slashes of a string are
-- its own.
theorem scan_of_layout_comments :
    ScansTo "x\t// y\n\"//\" // z" [(.identifier, "x"), (.str "//", "\"//\"")] := by
  have hword : Spells ['x'] (.token .identifier) :=
    .identifier (by decide) (by simp) (by intro k; cases k <;> decide)
  have hslashes : '"' ∉ ['/', '/'] := by decide
  have hstring := Spells.string hslashes
  have hbody : '\n' ∉ [' ', 'y'] := by decide
  have hbetween : Separator ['\t', '/', '/', ' ', 'y', '\n'] :=
    .intro (by decide) (Gap.comment hbody .nil)
  have hblank : Separator [' '] := .intro (by decide) .nil
  have htrailer : Trailer [' ', '/', '/', ' ', 'z'] := .comment hblank (by decide)
  have hlayout : Layout [⟨_, _, hword⟩, ⟨_, _, hstring⟩] "x\t// y\n\"//\" // z".toList :=
    .cons .nil (.next hbetween (.last htrailer))
  exact (scan_of_layout hlayout).1

end Lox.Lexical
