import Lox.Proofs.Lexical.Order

namespace Lox

open Lox.Text

-- The line that is shown for an item.
def Item.line : Item → Nat
  | token t => t.line
  | fault f => f.line

theorem Item.line_of_fault? {item : Item} {f : ScanFault} (h : item.fault? = some f) :
    f.diagnostic.line = item.line := by
  cases item with
  | token => cases h
  | fault =>
    cases h
    rfl

namespace Lexical

-- The line of an item, counted in the source as a whole. An unexpected character is the last one
-- that was read when its fault is yielded, so that the stream behind it tells which one it is.
def CountsLines (source : String) : Item → Stream → Prop
  | .token t, _ =>
    t.line = 1 + (takeBytes t.span.stop.offset source.toList).count '\n' ∧
      (t.isEof = true → t.line = 1 + source.toList.count '\n')
  | .fault ⟨.unexpectedCharacter c, line⟩, after =>
    ∃ front behind, source.toList = front ++ c :: behind ∧
      after = .reading (.behind source (front ++ [c])) ∧ line = 1 + front.count '\n'
  | .fault ⟨.unterminatedString, line⟩, _ => line = 1 + source.toList.count '\n'

variable {source : String} {front text rest start stop : List Char} {item : Item} {after : Stream}

-- A newline is never unexpected.
theorem Cut.ne_newline {c : Char} (h : Cut text front (.unexpected c)) : c ≠ '\n' := by
  cases h with
  | longest hspells => exact absurd rfl (hspells.not_unexpected c)
  | @unexpected _ rest hquote hnone =>
    rintro rfl
    exact hnone ['\n'] rest .blank rfl (.blank (by decide))

theorem Cut.unexpected_eq {c : Char} (h : Cut (text ++ rest) text (.unexpected c)) :
    text = [c] := by
  generalize text ++ rest = whole at h
  cases h with
  | longest hspells => exact absurd rfl (hspells.not_unexpected c)
  | unexpected => rfl

-- Nothing is left behind a quote that nothing closes.
theorem Cut.unterminated_eq (h : Cut (text ++ rest) text .unterminated) : rest = [] := by
  generalize hwhole : text ++ rest = whole at h
  cases h with
  | longest hspells => exact absurd rfl hspells.not_unterminated
  | unterminated => exact List.append_right_eq_self.mp hwhole

-- The line of an item is the one on which it stops, whatever the item is.
theorem Found.line_eq (h : Found source start item stop after) :
    item.line = 1 + stop.count '\n' := by
  cases h with
  | @piece _ text rest element _ hsource hcut hitem =>
    cases element with
    | blank | comment => cases hitem
    | token | unterminated | unexpected =>
      cases hitem
      rfl
  | eof => rfl

theorem takeBytes_of_prefix (h : front <+: text) : takeBytes (byteLength front) text = front := by
  obtain ⟨rest, rfl⟩ := h
  exact takeBytes_append front rest

theorem Found.countsLines (h : Found source start item stop after) :
    CountsLines source item after := by
  have hline := h.line_eq
  cases item with
  | token t =>
    have hoffset : t.span.stop.offset = byteLength stop :=
      congrArg (fun span : Span => span.stop.offset) h.span_eq
    refine ⟨?_, ?_⟩
    · rw [hoffset, takeBytes_of_prefix h.stop_prefix]
      exact hline
    · intro heof
      rw [← (h.of_isEof heof).2]
      exact hline
  | fault f =>
    generalize hfault : Item.fault f = item at h
    cases h with
    | eof => cases hfault
    | @piece _ text rest element _ hsource hcut hitem =>
      subst hfault
      cases element with
      | blank | comment | token => cases hitem
      | unexpected c =>
        cases hitem
        obtain rfl := hcut.unexpected_eq
        have hcount : (start ++ [c]).count '\n' = start.count '\n' := by
          rw [List.count_append, List.count_singleton, beq_eq_false_iff_ne.mpr hcut.ne_newline]
          rfl
        exact ⟨start, rest, hsource, rfl, hline.trans (congrArg (1 + ·) hcount)⟩
      | unterminated =>
        cases hitem
        obtain rfl := hcut.unterminated_eq
        rw [List.append_nil] at hsource
        rw [CountsLines, hsource]

theorem Before.line_le {first second : Item} (h : Before source first second) :
    first.line ≤ second.line := by
  obtain ⟨start, stop, start', stop', after', hfirst, hsecond, hbehind⟩ := h
  have hprefix := hbehind.trans hsecond.start_prefix
  have hcount := hprefix.sublist.count_le '\n'
  rw [hfirst.line_eq, hsecond.line_eq]
  omega

-- The lines of all items are counted in the source as a whole, however often a string runs over the
-- end of a line. So they never decrease, and neither do those of the diagnostics of a scan.
theorem lines_of_items (source : String) :
    (∀ count item after, (Stream.ofSource source).nth? count = some (item, after) →
      CountsLines source item after) ∧
    ((Stream.ofSource source).items.map Item.line).Pairwise (· ≤ ·) ∧
    ((scan .empty source).2.entries.map Diagnostic.line).Pairwise (· ≤ ·) := by
  have hitems : (Stream.ofSource source).items.Pairwise (Before source) :=
    (placed_ofSource source).pairwise_items
  refine ⟨?_, ?_, ?_⟩
  · intro count item after h
    obtain ⟨start, stop, hfound⟩ := found_of_nth? h
    exact hfound.countsLines
  · exact List.pairwise_map.mpr (hitems.imp Before.line_le)
  · rw [scan, Stream.collect_eq, Log.empty, List.nil_append, List.map_map]
    refine List.pairwise_map.mpr (hitems.filterMap Item.fault? ?_)
    intro first second hbefore f hf g hg
    rw [Function.comp_apply, Function.comp_apply, Item.line_of_fault? hf, Item.line_of_fault? hg]
    exact hbefore.line_le

-- A string over two lines, a foreign character behind it, and a string that is never closed.
example : (Stream.ofSource "\"a\nb\" @\n\"c\n").items.map Item.line = [2, 2, 4, 4] := by
  decide +kernel

end Lexical

end Lox
