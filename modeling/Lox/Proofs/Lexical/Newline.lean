import Lox.Proofs.Lexical.Record

namespace Lox.Lexical

open Lox.Text

-- A newline behind a text is no more to any piece in it than the end of the text.
theorem mem_head?_append_newline {c : Char} {rest more : List Char}
    (h : c ∈ (rest ++ '\n' :: more).head?) : c ∈ rest.head? ∨ c = '\n' := by
  cases rest with
  | nil => exact .inr (Option.some.inj h).symm
  | cons d rest => exact .inl h

theorem fraction_append_newline {rest : List Char} (h : Element.fraction rest = [])
    (more : List Char) : Element.fraction (rest ++ '\n' :: more) = [] := by
  rw [fraction_eq_nil_iff] at h ⊢
  intro digits hpoint d hd
  cases rest with
  | nil => cases (List.cons.inj hpoint).1
  | cons c rest =>
    rw [List.cons_append] at hpoint
    obtain ⟨rfl, rfl⟩ := List.cons.inj hpoint
    obtain hd | rfl := mem_head?_append_newline hd
    · exact h rest rfl d hd
    · rfl

theorem Ends.append_newline {piece rest : List Char} {element : Element}
    (h : Ends piece rest element) (more : List Char) :
    Ends piece (rest ++ '\n' :: more) element := by
  cases element with
  | comment =>
    intro c hc
    exact (mem_head?_append_newline hc).elim (h c) id
  | token data =>
    refine h.of_rest (fun c hc => ?_) fun hnone => fraction_append_newline hnone more
    obtain hc | rfl := mem_head?_append_newline hc
    · exact .inl hc
    · exact .inr (by decide)
  | blank | unterminated | unexpected => trivial

-- The longest element at the front of a text has an end there that shows in the next characters.
theorem Cut.ends {piece rest : List Char} {element : Element} (h : Cut (piece ++ rest) piece element)
    (hspells : Spells piece element) : Ends piece rest element := by
  obtain ⟨c, inner, rfl⟩ := List.exists_cons_of_ne_nil hspells.ne_nil
  obtain ⟨inner', rest', element', htext, hspells', hends⟩ | ⟨rfl, hopen⟩ | hforeign :=
    begins_or c (inner ++ rest)
  · rw [List.cons_append, htext] at h
    obtain ⟨hpiece, rfl⟩ := h.unique (cut_of_ends hspells' hends)
    obtain ⟨-, rfl⟩ := List.cons.inj hpiece
    obtain rfl := List.append_cancel_left htext
    exact hends
  · exact absurd (List.mem_append_left rest (quote_mem_of_spells hspells)) hopen
  · exact absurd hspells (hforeign.not_spells inner element)

theorem foreign_of_cut {c : Char} {rest : List Char} (h : Cut (c :: rest) [c] (.unexpected c)) :
    Foreign c := by
  obtain ⟨inner, rest, element, rfl, hspells, hends⟩ | ⟨rfl, hopen⟩ | hforeign := begins_or c rest
  · obtain ⟨-, rfl⟩ := h.unique (cut_of_ends hspells hends)
    exact absurd rfl (hspells.not_unexpected c)
  · cases (h.unique (.unterminated hopen)).2
  · exact hforeign

-- What is cut off stays the same in front of another rest, if it still ends there. Only an open
-- string would go on in it.
theorem Cut.of_ends {piece rest other : List Char} {element : Element}
    (h : Cut (piece ++ rest) piece element)
    (hends : Ends piece rest element → Ends piece other element)
    (hopen : element = .unterminated → other = []) : Cut (piece ++ other) piece element := by
  generalize hwhole : piece ++ rest = whole at h
  cases h with
  | longest hspells hlongest =>
    obtain rfl := List.append_cancel_left hwhole
    exact cut_of_ends hspells (hends ((Cut.longest hspells hlongest).ends hspells))
  | unterminated hclosed =>
    rw [hopen rfl, List.append_nil]
    exact .unterminated hclosed
  | unexpected hquote hnone => exact cut_foreign (foreign_of_cut (.unexpected hquote hnone)) _

theorem division_blank {c : Char} {text : List Char} {pieces : List Piece} (hc : c ∈ blanks)
    (h : Division text pieces) : Division (c :: text) (⟨[c], .blank⟩ :: pieces) := by
  have hblank : Spells [c] .blank := .blank hc
  have hcut : Cut ([c] ++ text) [c] .blank := cut_of_ends hblank trivial
  exact .cons hcut h

-- Two texts with a newline between them are divided one after the other.
theorem Division.append_newline {a b : List Char} {pieces others : List Piece}
    (ha : Division a pieces) (hclosed : ∀ piece ∈ pieces, piece.element ≠ .unterminated)
    (hb : Division b others) :
    Division (a ++ '\n' :: b) (pieces ++ ⟨['\n'], .blank⟩ :: others) := by
  induction ha with
  | nil => exact division_blank (by decide) hb
  | @cons text rest element pieces hcut hrest ih =>
    have hfirst : Cut (text ++ (rest ++ '\n' :: b)) text element :=
      hcut.of_ends (fun hends => hends.append_newline b)
        fun hopen => absurd hopen (hclosed _ List.mem_cons_self)
    have hmore := ih fun piece hmem => hclosed piece (List.mem_cons_of_mem _ hmem)
    rw [List.append_assoc]
    exact .cons hfirst hmore

-- An open string among the pieces of a source is reported.
theorem ne_unterminated_of_scan {source : String} {pieces : List Piece}
    (h : Division source.toList pieces)
    (hclosed : ∀ d ∈ (scan .empty source).2.entries,
      d.message ≠ ScanCause.unterminatedString.message) :
    ∀ piece ∈ pieces, piece.element ≠ .unterminated := by
  intro piece hmem hopen
  obtain ⟨l, hl, rfl⟩ := exists_mem_locate [] hmem
  have hfault : l.fault? = some ⟨.unterminatedString, l.line⟩ := by
    rw [Located.fault?, hopen]
  refine hclosed (ScanFault.diagnostic ⟨.unterminatedString, l.line⟩) ?_ rfl
  rw [(scan_eq_findings h .empty).2]
  exact List.mem_map_of_mem (List.mem_filterMap.mpr ⟨l, hl, hfault⟩)

section Join

variable {pieces others : List Piece} {a : List Char}

theorem locate_join (ha : pieces.flatMap Piece.text = a) :
    locate [] (pieces ++ ⟨['\n'], .blank⟩ :: others) =
      locate [] pieces ++ ⟨a, ['\n'], .blank⟩ ::
        (locate [] others).map (Located.behind (a ++ ['\n'])) := by
  have hbehind := locate_behind (a ++ ['\n']) [] others
  rw [List.append_nil] at hbehind
  rw [locate_append, List.nil_append, ha, locate, hbehind]

theorem records_join (ha : pieces.flatMap Piece.text = a) :
    (locate [] (pieces ++ ⟨['\n'], .blank⟩ :: others)).filterMap Located.record? =
      (locate [] pieces).filterMap Located.record? ++
        ((locate [] others).filterMap Located.record?).map
          (Record.shift (byteLength a + 1) (a.count '\n' + 1)) := by
  have hbytes : byteLength (a ++ ['\n']) = byteLength a + 1 := byteLength_append _ _
  have hlines : (a ++ ['\n']).count '\n' = a.count '\n' + 1 := List.count_append
  have hbehind : (fun l : Located => (l.behind (a ++ ['\n'])).record?) =
      fun l => l.record?.map (Record.shift (byteLength a + 1) (a.count '\n' + 1)) := by
    funext l
    rw [Located.record?_behind, hbytes, hlines]
  rw [locate_join ha, List.filterMap_append, List.map_filterMap, ← hbehind]
  exact congrArg _ List.filterMap_map

theorem faults_join (ha : pieces.flatMap Piece.text = a) :
    (locate [] (pieces ++ ⟨['\n'], .blank⟩ :: others)).filterMap Located.fault? =
      (locate [] pieces).filterMap Located.fault? ++
        ((locate [] others).filterMap Located.fault?).map (ScanFault.shift (a.count '\n' + 1)) := by
  have hlines : (a ++ ['\n']).count '\n' = a.count '\n' + 1 := List.count_append
  have hbehind : (fun l : Located => (l.behind (a ++ ['\n'])).fault?) =
      fun l => l.fault?.map (ScanFault.shift (a.count '\n' + 1)) := by
    funext l
    rw [Located.fault?_behind, hlines]
  rw [locate_join ha, List.filterMap_append, List.map_filterMap, ← hbehind]
  exact congrArg _ List.filterMap_map

end Join

-- The only token of a source that is the end of input is the last one.
theorem not_eof_of_mem_records {text : List Char} {pieces : List Piece} (h : Division text pieces)
    {r : Record} (hr : r ∈ (locate [] pieces).filterMap Located.record?) :
    r.data.isEof = false := by
  obtain ⟨⟨front, piece, element⟩, hl, hrecord⟩ := List.mem_filterMap.mp hr
  cases element with
  | token data =>
    have hspells := h.spells (piece_of_mem_locate hl)
    cases hrecord
    exact hspells.not_eof
  | _ => cases hrecord

theorem records_without_eof {source : String} {pieces : List Piece}
    (h : Division source.toList pieces) (log : Log) :
    ((scan log source).1.filter fun t => !t.isEof).map Token.record =
      (locate [] pieces).filterMap Located.record? := by
  have hfilter : ((scan log source).1.filter fun t => !t.isEof).map Token.record =
      ((scan log source).1.map Token.record).filter fun r => !r.data.isEof := by
    rw [List.filter_map]
    rfl
  have hkept : ((locate [] pieces).filterMap Located.record?).filter (fun r => !r.data.isEof) =
      (locate [] pieces).filterMap Located.record? := by
    rw [List.filter_eq_self]
    intro r hr
    rw [not_eof_of_mem_records h hr]
    rfl
  rw [hfilter, (scan_eq_findings h log).1, List.filter_append, hkept]
  exact List.append_nil _

-- A newline separates what is scanned in front of it from what is scanned behind it, wherever the
-- first source ends, unless that is within a string. All that changes behind it is the place.
theorem scan_append_newline {a : String} (b : String) (log : Log)
    (hclosed : ∀ d ∈ (scan .empty a).2.entries, d.message ≠ ScanCause.unterminatedString.message) :
    let bytes := a.utf8ByteSize + 1
    let lines := a.toList.count '\n' + 1
    (scan log (a ++ "\n" ++ b)).1.map Token.record =
        ((scan log a).1.filter fun t => !t.isEof).map Token.record ++
          (scan log b).1.map (fun t => t.record.shift bytes lines) ∧
      (scan log (a ++ "\n" ++ b)).2.entries =
        (scan log a).2.entries ++ (scan .empty b).2.entries.map (Diagnostic.shift lines) := by
  intro bytes lines
  obtain ⟨pieces, hpieces⟩ := exists_division a.toList
  obtain ⟨others, hothers⟩ := exists_division b.toList
  have hall : (a ++ "\n" ++ b).toList = a.toList ++ '\n' :: b.toList := by simp
  have hjoin : Division (a ++ "\n" ++ b).toList (pieces ++ ⟨['\n'], .blank⟩ :: others) := by
    rw [hall]
    exact hpieces.append_newline (ne_unterminated_of_scan hpieces hclosed) hothers
  have hbytes : byteLength a.toList + 1 = bytes := congrArg (· + 1) (byteLength_toList a)
  obtain ⟨hrecords, hfaults⟩ := scan_eq_findings hjoin log
  obtain ⟨hrecords', -⟩ := scan_eq_findings hothers log
  have hend : endRecord (a ++ "\n" ++ b).toList = (endRecord b.toList).shift bytes lines := by
    have hsize : byteLength ('\n' :: b.toList) = 1 + byteLength b.toList := byteLength_cons _ _
    simp only [endRecord, Record.shift, hall, byteLength_append, hsize, ← hbytes,
      List.count_append, List.count_cons_self, lines]
    simp only [Record.mk.injEq, true_and]
    omega
  constructor
  · calc
      (scan log (a ++ "\n" ++ b)).1.map Token.record
        = (locate [] pieces).filterMap Located.record? ++
            ((locate [] others).filterMap Located.record? ++ [endRecord b.toList]).map
              (Record.shift bytes lines) := by
          rw [hrecords, records_join hpieces.flatMap_text, hend, hbytes, List.append_assoc,
            List.map_append]
          rfl
      _ = _ := by
          rw [records_without_eof hpieces, ← hrecords', List.map_map]
          rfl
  · rw [hfaults, faults_join hpieces.flatMap_text, (scan_eq_findings hpieces log).2,
      (scan_eq_findings hothers .empty).2, List.map_append, List.map_map, List.append_assoc,
      List.map_append, List.map_map]
    rfl

-- The first source ends on half an operator, behind a foreign character, and the second one goes on
-- with the other half and an open string.
theorem scan_append_newline_halves :
    let a := "\"x\ny\" é@ 3. <"
    let b := "= 4 // z\n\"w"
    let joined := scan .empty (a ++ "\n" ++ b)
    let first : List Record :=
      [⟨.str "x\ny", "\"x\ny\"", 2, 0, 5⟩, ⟨.number ⟨0x4008000000000000⟩, "3", 2, 10, 11⟩,
        ⟨.symbol .dot, ".", 2, 11, 12⟩, ⟨.symbol .less, "<", 2, 13, 14⟩]
    (∀ d ∈ (scan .empty a).2.entries, d.message ≠ ScanCause.unterminatedString.message) ∧
      joined.1.map Token.record =
        ((scan .empty a).1.filter fun t => !t.isEof).map Token.record ++
          (scan .empty b).1.map (fun t => t.record.shift 15 2) ∧
      (scan .empty a).1.map Token.record = first ++ [⟨.eof, "", 2, 14, 14⟩] ∧
      (scan .empty b).1.map Token.record =
        [⟨.symbol .equal, "=", 1, 0, 1⟩, ⟨.number ⟨0x4010000000000000⟩, "4", 1, 2, 3⟩,
          ⟨.eof, "", 2, 11, 11⟩] ∧
      joined.1.map Token.record = first ++
        [⟨.symbol .equal, "=", 3, 15, 16⟩, ⟨.number ⟨0x4010000000000000⟩, "4", 3, 17, 18⟩,
          ⟨.eof, "", 4, 26, 26⟩] ∧
      joined.2.entries =
        [⟨2, "", "Unexpected character."⟩, ⟨2, "", "Unexpected character."⟩,
          ⟨4, "", "Unterminated string."⟩] := by
  intro a b joined first
  have hclosed : ∀ d ∈ (scan .empty a).2.entries,
      d.message ≠ ScanCause.unterminatedString.message := by decide +kernel
  have hbytes : a.utf8ByteSize + 1 = 15 := by decide +kernel
  have hlines : a.toList.count '\n' + 1 = 2 := by decide +kernel
  have hjoin := scan_append_newline b .empty hclosed
  rw [hbytes, hlines] at hjoin
  refine ⟨hclosed, hjoin.1, by decide +kernel, by decide +kernel, hjoin.1.trans ?_,
    hjoin.2.trans ?_⟩
  · decide +kernel
  · decide +kernel

end Lox.Lexical
