import Lox.Proofs.Grammar.Meaning
import Lox.Proofs.Lexical.Equality
import Lox.Proofs.Run.Cut

namespace Lox

open Lox.Expr Lox.Grammar Lox.Lexical Lox.Text

-- How a meaning is written that is always written in the same way.
def TokenData.word : TokenData → String
  | symbol s => s.text
  | _ => ""

-- A token that has kept nothing of the source in which it was found but its meaning.
def Token.plain (data : TokenData) : Token := .ofLexeme data data.word

def Token.toPlain (t : Token) : Token := .plain t.data

theorem keepsData_toPlain : KeepsData Token.toPlain := fun _ => rfl

theorem lexeme_plain (data : TokenData) : (Token.plain data).lexeme = data.word :=
  Span.lexeme_whole _

theorem map_toPlain (tokens : List Token) :
    tokens.map Token.toPlain = (tokens.map Token.data).map Token.plain := by
  rw [List.map_map]
  rfl

-- An operator is written in only one way.
theorem eq_text_of_spells {text : List Char} {s : Symbol} (h : Spells text (.token (.symbol s))) :
    text = s.text.toList := by
  cases h
  rfl

theorem lexeme_of_symbol {log : Log} {source : String} {t : Token} {s : Symbol}
    (h : t ∈ (scan log source).1) (hdata : t.data = .symbol s) : t.lexeme = s.text :=
  String.toList_inj.mp (eq_text_of_spells (spells_of_mem_scan h hdata rfl))

theorem exists_isEof_scan (log : Log) (source : String) :
    ∃ t ∈ (scan log source).1, t.isEof = true := by
  obtain ⟨pieces, hpieces⟩ := exists_division source.toList
  have hmem : (TokenData.eof, "") ∈ (scan log source).1.map view := by
    rw [scan_of_division hpieces log]
    simp
  obtain ⟨t, ht, hview⟩ := List.mem_map.mp hmem
  have hdata : t.data = .eof := (Prod.mk.inj hview).1
  exact ⟨t, ht, by rw [Token.isEof, hdata, TokenData.isEof]⟩

theorem exists_symbol_of_isOperator {t : Token} (h : isOperator t = true) :
    ∃ s, t.data = .symbol s := by
  obtain ⟨data, span⟩ := t
  cases data with
  | symbol s => exact ⟨s, rfl⟩
  | _ => cases h

-- The text of a tree that was parsed from a source does not need the source.
theorem text_toPlain {log : Log} {source : String} {e : Expr}
    (h : parseComplete (scan log source).1 = .ok e) : (e.mapTokens Token.toPlain).text = e.text := by
  apply text_mapTokens
  intro o ho
  rw [(operators_and_leaves_of_derives (parseComplete_eq_ok_iff.mp h).1).1, List.mem_filter] at ho
  obtain ⟨s, hs⟩ := exists_symbol_of_isOperator ho.2
  have hmem : o ∈ (scan log source).1 := (List.takeWhile_subset _) ho.1
  rw [Token.toPlain, lexeme_plain, lexeme_of_symbol hmem hs, hs, TokenData.word]

section Runs

variable {source : String} (hlog : (scan .empty source).2 = .empty)

include hlog

theorem run_of_parseComplete_ok {e : Expr} (h : parseComplete (scan .empty source).1 = .ok e) :
    (run false source (.empty none)).1.held.toList = encode (e.text ++ "\n") ∧
      (run false source (.empty none)).2 = .ok () := by
  have hreport : Report.ofSource false source = ⟨[e.text ++ "\n"], .ok ()⟩ := by
    simp [Report.ofSource, hlog, h]
  have hrun := run_unlimited false source
  rw [hreport] at hrun
  simpa [Report.output] using hrun

theorem run_of_parseComplete_error {error : ParseError}
    (h : parseComplete (scan .empty source).1 = .error error) :
    (run false source (.empty none)).1.held.toList = [] ∧
      (run false source (.empty none)).2 = .error (.parse error) := by
  have hreport : Report.ofSource false source = ⟨[], .error (.parse error)⟩ := by
    simp [Report.ofSource, hlog, h]
  have hrun := run_unlimited false source
  rw [hreport] at hrun
  simpa [Report.output] using hrun

end Runs

-- A run without a listing depends only on the meanings of the tokens: two sources that have the same
-- ones yield the same output, or their parses fail alike at the same index.
theorem run_of_same_meaning {a b : String} (ha : (scan .empty a).2 = .empty)
    (hb : (scan .empty b).2 = .empty)
    (hsame : ((scan .empty a).1.map Token.data == (scan .empty b).1.map Token.data) = true) :
    let left := run false a (.empty none)
    let right := run false b (.empty none)
    left.1.held = right.1.held ∧
      (left.2 = .ok () ∧ right.2 = .ok () ∨
      ∃ (i : Nat) (e f : ParseError), left.2 = .error (.parse e) ∧ right.2 = .error (.parse f) ∧
        e.cause = f.cause ∧ e.diagnostic.message = f.diagnostic.message ∧
        (scan .empty a).1[i]? = some e.token ∧ (scan .empty b).1[i]? = some f.token) := by
  have hdata := scan_data_eq_of_beq hsame
  have hplain : (scan .empty a).1.map Token.toPlain = (scan .empty b).1.map Token.toPlain := by
    rw [map_toPlain, map_toPlain, hdata]
  obtain ⟨e, f, he, hf, hef⟩ | ⟨i, e, f, he, hf, hcause, hi, hi'⟩ :=
    parseComplete_of_same keepsData_toPlain hplain (exists_isEof_scan .empty a)
  · have htext : e.text = f.text := by rw [← text_toPlain he, hef, text_toPlain hf]
    obtain ⟨hheld, hend⟩ := run_of_parseComplete_ok ha he
    obtain ⟨hheld', hend'⟩ := run_of_parseComplete_ok hb hf
    refine ⟨Array.toList_inj.mp ?_, .inl ⟨hend, hend'⟩⟩
    rw [hheld, hheld', htext]
  · obtain ⟨hheld, hend⟩ := run_of_parseComplete_error ha he
    obtain ⟨hheld', hend'⟩ := run_of_parseComplete_error hb hf
    refine ⟨Array.toList_inj.mp (hheld.trans hheld'.symm), .inr ?_⟩
    exact ⟨i, e, f, hend, hend', hcause, congrArg ParseCause.message hcause, hi, hi'⟩

-- A comment, a line break and other digits for the same number are no difference.
theorem run_of_same_meaning_spelling :
    let a := "1+ // one\n-2"
    let b := "01.0 +-2.00"
    (scan .empty a).2 = .empty ∧ (scan .empty b).2 = .empty ∧
      ((scan .empty a).1.map Token.data == (scan .empty b).1.map Token.data) = true ∧
      (run false a (.empty none)).1.held = (run false b (.empty none)).1.held ∧
      (run false a (.empty none)).1.held.toList = encode "(+ 1 (- 2))\n" := by
  intro a b
  have ha : (scan .empty a).2 = .empty := by decide +kernel
  have hb : (scan .empty b).2 = .empty := by decide +kernel
  have hsame : ((scan .empty a).1.map Token.data == (scan .empty b).1.map Token.data) = true := by
    decide +kernel
  exact ⟨ha, hb, hsame, (run_of_same_meaning ha hb hsame).1, by decide +kernel⟩

end Lox
