import Lox.Proofs.Lexical.Line
import Lox.Proofs.Text.Split

namespace Lox

open Lox.Text

namespace Stream

-- The call that comes behind some others gives the item behind theirs, and none when all of them are
-- used up.
theorem nth?_eq_getElem? (count : Nat) (s : Stream) :
    (s.nth? count).map Prod.fst = s.items[count]? := by
  induction count generalizing s with
  | zero =>
    cases hnext : s.next? with
    | none => rw [nth?, skip, hnext, items_of_next?_none hnext]; rfl
    | some found => rw [nth?, skip, hnext, items_of_next? hnext]; rfl
  | succ count ih =>
    rw [nth?, skip]
    cases hnext : s.next? with
    | none => rw [items_of_next?_none hnext, next?_finished]; rfl
    | some found => rw [items_of_next? hnext, List.getElem?_cons_succ, ← ih]; rfl

end Stream

namespace ScanFault

theorem text_diagnostic (f : ScanFault) : f.diagnostic.text = f.text := by
  rw [Diagnostic.text, diagnostic, text, if_pos rfl]
  simp only [String.append_assoc]
  rfl

theorem newline_notMem_text (f : ScanFault) : '\n' ∉ f.text.toList := by
  obtain ⟨cause, line⟩ := f
  have hline : '\n' ∉ (toString line).toList := by
    intro hmem
    exact absurd (isDigit_of_mem_toString hmem) (by decide)
  have hmessage : '\n' ∉ cause.message.toList := by
    cases cause with
    | unexpectedCharacter c =>
      have hplain : '\n' ∉ "Unexpected character.".toList := by decide
      exact hplain
    | unterminatedString => decide
  simp only [text, String.toList_append, List.mem_append, not_or]
  exact ⟨⟨⟨by decide, hline⟩, by decide⟩, hmessage⟩

theorem text_ne_empty (f : ScanFault) : f.text ≠ "" := by
  intro hempty
  have htext := congrArg String.toList hempty
  simp [text] at htext

end ScanFault

namespace Lexical

variable {source : String} {front text : List Char} {pieces : List Piece}

theorem exists_piece_of_mem_yields {item : Item} (h : item ∈ yields source front pieces) :
    ∃ before, ∃ piece ∈ pieces, piece.item? source before = some item := by
  induction pieces generalizing front with
  | nil => cases h
  | cons piece pieces ih =>
    rcases List.mem_append.mp h with h | h
    · exact ⟨front, piece, List.mem_cons_self, Option.mem_toList.mp h⟩
    · obtain ⟨before, other, hother, hitem⟩ := ih h
      exact ⟨before, other, List.mem_cons_of_mem _ hother, hitem⟩

-- No piece of a text is the end of input.
theorem Division.not_eof_of_mem_yields (h : Division text pieces) {t : Token}
    (ht : .token t ∈ yields source front pieces) : t.isEof = false := by
  obtain ⟨before, ⟨piece, element⟩, hpiece, hitem⟩ := exists_piece_of_mem_yields ht
  cases element <;> cases hitem
  exact (h.spells hpiece).not_eof

-- Nothing is left to yield behind a quote that nothing closes.
theorem Division.unterminated_last (h : Division text pieces) {index line : Nat}
    (hitem : (yields source front pieces)[index]? = some (.fault ⟨.unterminatedString, line⟩)) :
    index + 1 = (yields source front pieces).length := by
  induction h generalizing front index with
  | nil => cases hitem
  | @cons piece rest element pieces hcut hrest ih =>
    rw [yields] at hitem ⊢
    cases element with
    | blank | comment => exact ih hitem
    | unterminated =>
      obtain rfl := hcut.unterminated_eq
      obtain rfl := hrest.eq_nil
      cases index with
      | zero => rfl
      | succ index => cases hitem
    | token | unexpected =>
      cases index with
      | zero => cases hitem
      | succ index => exact congrArg (· + 1) (ih hitem)

theorem Division.unterminated_index (h : Division source.toList pieces) {index line : Nat}
    (hitem : (Stream.ofSource source).items[index]? =
      some (.fault ⟨.unterminatedString, line⟩)) :
    index + 2 = (Stream.ofSource source).items.length := by
  rw [items_eq_of_division h] at hitem ⊢
  rcases Nat.lt_or_ge index (yields source [] pieces).length with hlt | hge
  · rw [List.getElem?_append_left hlt] at hitem
    rw [List.length_append, ← h.unterminated_last hitem]
    rfl
  · rw [List.getElem?_append_right hge] at hitem
    generalize index - (yields source [] pieces).length = behind at hitem
    cases behind <;> cases hitem

-- Every fault makes a line of the report.
theorem textLines_report (faults : List ScanFault) :
    textLines (Log.text ⟨faults.map ScanFault.diagnostic⟩) = faults.map ScanFault.text := by
  have htext : (faults.map ScanFault.diagnostic).map Diagnostic.text =
      faults.map ScanFault.text := by
    rw [List.map_map]
    exact List.map_congr_left fun f _ => f.text_diagnostic
  rw [Log.text, htext]
  refine textLines_intercalate ?_ ?_
  · intro part hpart
    obtain ⟨f, -, rfl⟩ := List.mem_map.mp hpart
    exact f.newline_notMem_text
  · intro hmem
    obtain ⟨f, -, hempty⟩ := List.mem_map.mp hmem
    exact f.text_ne_empty hempty

-- Scanning at once finds what a reader finds who asks for one item after the other, whatever has been
-- reported before. The end of input is the last item and the only one of its sort, with nothing
-- behind it, an open string comes right in front of it, and every fault makes one line of the
-- report.
theorem scan_eq_items (log : Log) (source : String) :
    let items := (Stream.ofSource source).items
    let faults := items.filterMap Item.fault?
    scan log source =
        (items.filterMap Item.token?, ⟨log.entries ++ faults.map ScanFault.diagnostic⟩) ∧
      (∀ count, ((Stream.ofSource source).nth? count).map Prod.fst = items[count]?) ∧
      (∃ front eof, items = front ++ [.token eof] ∧ eof.isEof = true ∧
        ∀ t, .token t ∈ front → t.isEof = false) ∧
      (∀ index line, items[index]? = some (.fault ⟨.unterminatedString, line⟩) →
        index + 2 = items.length) ∧
      textLines (scan .empty source).2.text = faults.map ScanFault.text := by
  intro items faults
  obtain ⟨pieces, hpieces⟩ := exists_division source.toList
  refine ⟨Stream.collect_eq _ log, fun count => Stream.nth?_eq_getElem? count _, ?_, ?_, ?_⟩
  · have hitems : items = _ := items_eq_of_division hpieces
    exact ⟨_, _, hitems, rfl, fun t ht => hpieces.not_eof_of_mem_yields ht⟩
  · exact fun index line hitem => hpieces.unterminated_index hitem
  · have hlog : (scan .empty source).2 = ⟨faults.map ScanFault.diagnostic⟩ :=
      congrArg Prod.snd (Stream.collect_eq (.ofSource source) .empty)
    rw [hlog, textLines_report]

end Lexical

end Lox
