import Lox.Proofs.Lexical.Foreign

namespace Lox

open Lox.Text

-- A text, each of whose characters at some of the places is replaced by as many spaces as it takes
-- bytes.
def blankOut (places : List Nat) : Nat → List Char → List Char
  | _, [] => []
  | offset, c :: rest =>
    (if offset ∈ places then List.replicate c.utf8Size ' ' else [c]) ++
      blankOut places (offset + c.utf8Size) rest

-- A source without the characters that are reported as unexpected.
def blanked (source : String) : String :=
  String.ofList (blankOut (Stream.ofSource source).unexpectedPlaces 0 source.toList)

theorem blankOut_append (places : List Nat) (offset : Nat) (text rest : List Char) :
    blankOut places offset (text ++ rest) =
      blankOut places offset text ++ blankOut places (offset + byteLength text) rest := by
  induction text generalizing offset with
  | nil => rfl
  | cons c text ih =>
    rw [List.cons_append, blankOut, ih, blankOut, byteLength_cons, List.append_assoc, Nat.add_assoc]

-- A text stays as it is if none of the places lies in it.
theorem blankOut_eq_self {places : List Nat} {offset : Nat} {text : List Char}
    (h : ∀ place ∈ places, offset ≤ place → offset + byteLength text ≤ place) :
    blankOut places offset text = text := by
  induction text generalizing offset with
  | nil => rfl
  | cons c text ih =>
    rw [byteLength_cons] at h
    have hsize := c.utf8Size_pos
    have hnot : offset ∉ places := by
      intro hmem
      have hbehind := h offset hmem (Nat.le_refl offset)
      omega
    have hrest : blankOut places (offset + c.utf8Size) text = text := by
      refine ih fun place hmem hle => ?_
      have hbehind := h place hmem (by omega)
      omega
    rw [blankOut, if_neg hnot, hrest, List.singleton_append]

namespace Lexical

theorem flatMap_locate {α : Type} (f : Piece → List α) (front : List Char) (pieces : List Piece) :
    (locate front pieces).flatMap (fun l => f l.piece) = pieces.flatMap f := by
  induction pieces generalizing front with
  | nil => rfl
  | cons piece pieces ih => rw [locate, List.flatMap_cons, ih, List.flatMap_cons]

theorem blankOut_flatMap (places : List Nat) (front : List Char) (pieces : List Piece) :
    blankOut places (byteLength front) (pieces.flatMap Piece.text) =
      (locate front pieces).flatMap fun l =>
        blankOut places (byteLength l.front) l.piece.text := by
  induction pieces generalizing front with
  | nil => rfl
  | cons piece pieces ih =>
    rw [List.flatMap_cons, blankOut_append, ← byteLength_append, ih, locate, List.flatMap_cons]

-- What is left of a piece when the foreign characters are blanked out.
def Piece.blanked (piece : Piece) : List Piece :=
  match piece.element with
  | .unexpected c => List.replicate c.utf8Size ⟨[' '], .blank⟩
  | _ => [piece]

theorem Piece.blanked_eq_self {piece : Piece} (h : ¬ ∃ c, piece.element = .unexpected c) :
    piece.blanked = [piece] := by
  unfold Piece.blanked
  split
  · rename_i c helement
    exact absurd ⟨c, helement⟩ h
  · rfl

theorem flatMap_replicate_blank (count : Nat) :
    (List.replicate count (⟨[' '], .blank⟩ : Piece)).flatMap Piece.text =
      List.replicate count ' ' := by
  induction count with
  | zero => rfl
  | succ count ih =>
    rw [List.replicate_succ, List.flatMap_cons, ih, List.singleton_append, List.replicate_succ]

theorem toList_blanked {source : String} {pieces : List Piece} (h : Division source.toList pieces) :
    (blanked source).toList = (pieces.flatMap Piece.blanked).flatMap Piece.text := by
  have hpiece (l : Located) (hl : l ∈ locate [] pieces) :
      blankOut (Stream.ofSource source).unexpectedPlaces (byteLength l.front) l.piece.text =
        l.piece.blanked.flatMap Piece.text := by
    by_cases hforeign : ∃ c, l.piece.element = .unexpected c
    · obtain ⟨c, helement⟩ := hforeign
      obtain ⟨hpiece, -⟩ := h.unexpected_eq (piece_of_mem_locate hl) helement
      have hplace : byteLength l.front ∈ (Stream.ofSource source).unexpectedPlaces :=
        (mem_unexpectedPlaces_iff h _).mpr ⟨l, hl, c, hpiece, rfl⟩
      rw [hpiece, blankOut, if_pos hplace, blankOut, List.append_nil]
      exact (flatMap_replicate_blank _).symm
    · rw [Piece.blanked_eq_self hforeign, List.flatMap_singleton]
      refine blankOut_eq_self fun place hplace hle => ?_
      rw [← byteLength_append]
      by_contra hlt
      obtain ⟨c, hpiece⟩ := unexpected_of_covers h hl hplace ⟨hle, Nat.not_le.mp hlt⟩
      exact hforeign ⟨c, congrArg Piece.element hpiece⟩
  have hflat := blankOut_flatMap (Stream.ofSource source).unexpectedPlaces [] pieces
  rw [h.flatMap_text, byteLength_nil] at hflat
  rw [blanked, String.toList_ofList, hflat, List.flatMap_assoc,
    ← flatMap_locate (fun piece => piece.blanked.flatMap Piece.text) []]
  exact List.flatMap_congr hpiece

-- Two texts that differ only where the first one has foreign characters. The second one has as many
-- spaces there as they take bytes.
inductive Masks : List Char → List Char → Prop where
  | nil : Masks [] []
  | keep {c : Char} {text other : List Char} : Masks text other → Masks (c :: text) (c :: other)
  | mask {c : Char} {text other : List Char} :
      Foreign c → Masks text other →
      Masks (c :: text) (List.replicate c.utf8Size ' ' ++ other)

theorem Foreign.ne_newline {c : Char} (h : Foreign c) : c ≠ '\n' := by
  rintro rfl
  exact absurd h.blank (by decide)

-- A foreign character gives way to at least one space.
theorem replicate_utf8Size (c : Char) :
    List.replicate c.utf8Size ' ' = ' ' :: List.replicate (c.utf8Size - 1) ' ' := by
  rw [← List.replicate_succ, Nat.sub_add_cancel c.utf8Size_pos]

theorem byteLength_replicate_blank (count : Nat) :
    byteLength (List.replicate count ' ') = count := by
  induction count with
  | zero => rfl
  | succ count ih =>
    have hblank : ' '.utf8Size = 1 := rfl
    rw [List.replicate_succ, byteLength_cons, ih, hblank, Nat.add_comm]

theorem count_replicate_blank (count : Nat) : (List.replicate count ' ').count '\n' = 0 :=
  List.count_eq_zero.mpr fun hmem => absurd (List.eq_of_mem_replicate hmem) (by decide)

namespace Masks

variable {text other : List Char}

theorem append_left (h : Masks text other) (front : List Char) :
    Masks (front ++ text) (front ++ other) := by
  induction front with
  | nil => exact h
  | cons c front ih => exact .keep ih

theorem byteLength_eq (h : Masks text other) : byteLength other = byteLength text := by
  induction h with
  | nil => rfl
  | keep _ ih => rw [byteLength_cons, byteLength_cons, ih]
  | mask _ _ ih => rw [byteLength_append, byteLength_replicate_blank, byteLength_cons, ih]

theorem count_newline_eq (h : Masks text other) : other.count '\n' = text.count '\n' := by
  induction h with
  | nil => rfl
  | keep _ ih => rw [List.count_cons, List.count_cons, ih]
  | mask hforeign _ ih =>
    rw [List.count_append, count_replicate_blank, Nat.zero_add, ih,
      List.count_cons_of_ne hforeign.ne_newline]

theorem head? (h : Masks text other) : ∀ c ∈ other.head?,
    c ∈ text.head? ∨ c = ' ' ∧ ∃ d ∈ text.head?, Foreign d := by
  cases h with
  | nil => exact fun c hc => .inl hc
  | keep _ => exact fun c hc => .inl hc
  | @mask d text other hforeign _ =>
    intro c hc
    rw [replicate_utf8Size] at hc
    exact .inr ⟨(Option.some.inj hc).symm, d, rfl, hforeign⟩

-- Neither a point nor a digit behind it is foreign, nor is a space either of them.
theorem fraction_eq_nil (h : Masks text other) (hnone : Element.fraction text = []) :
    Element.fraction other = [] := by
  rw [fraction_eq_nil_iff] at hnone ⊢
  rintro digits rfl d hd
  generalize hother : '.' :: digits = whole at h
  cases h with
  | nil => cases hother
  | @keep c text other hrest =>
    obtain ⟨rfl, rfl⟩ := List.cons.inj hother
    obtain hd | ⟨rfl, -⟩ := hrest.head? d hd
    · exact hnone text rfl d hd
    · rfl
  | @mask c text other hforeign hrest =>
    rw [replicate_utf8Size] at hother
    cases (List.cons.inj hother).1

end Masks

-- An element ends where it did when foreign characters behind it are blanked out.
theorem Ends.masks {piece rest other : List Char} {element : Element} (h : Ends piece rest element)
    (hrest : Masks rest other) : Ends piece other element := by
  cases element with
  | comment =>
    intro c hc
    obtain hc | ⟨-, d, hd, hforeign⟩ := hrest.head? c hc
    · exact h c hc
    · exact absurd (h d hd) hforeign.ne_newline
  | token data =>
    refine h.of_rest (fun c hc => ?_) hrest.fraction_eq_nil
    obtain hc | ⟨rfl, -⟩ := hrest.head? c hc
    · exact .inl hc
    · exact .inr (by decide)
  | blank | unterminated | unexpected => trivial

theorem Cut.masks {text rest other : List Char} {element : Element}
    (h : Cut (text ++ rest) text element) (hrest : Masks rest other) :
    Cut (text ++ other) text element := by
  refine h.of_ends (fun hends => hends.masks hrest) ?_
  rintro rfl
  obtain rfl := h.unterminated_eq
  cases hrest
  rfl

theorem Cut.masks_blanked {text rest : List Char} {element : Element}
    (h : Cut (text ++ rest) text element) :
    Masks text ((Piece.blanked ⟨text, element⟩).flatMap Piece.text) := by
  by_cases hforeign : ∃ c, element = .unexpected c
  · obtain ⟨c, rfl⟩ := hforeign
    obtain rfl := h.unexpected_eq
    rw [Piece.blanked, flatMap_replicate_blank, ← List.append_nil (List.replicate _ _)]
    exact .mask (foreign_of_cut h) .nil
  · rw [Piece.blanked_eq_self hforeign, List.flatMap_singleton, ← List.append_nil text]
    exact Masks.nil.append_left text

theorem division_replicate_blank {text : List Char} {pieces : List Piece}
    (h : Division text pieces) (count : Nat) :
    Division (List.replicate count ' ' ++ text)
      (List.replicate count ⟨[' '], .blank⟩ ++ pieces) := by
  induction count with
  | zero => exact h
  | succ count ih => exact division_blank (by decide) ih

-- Blanking out the foreign characters leaves all other pieces as they are.
theorem Division.blanked {text : List Char} {pieces : List Piece} (h : Division text pieces) :
    ∃ other, Masks text other ∧ Division other (pieces.flatMap Piece.blanked) := by
  induction h with
  | nil => exact ⟨[], .nil, .nil⟩
  | @cons text rest element pieces hcut hrest ih =>
    obtain ⟨other, hmasks, hdivision⟩ := ih
    by_cases hforeign : ∃ c, element = .unexpected c
    · obtain ⟨c, rfl⟩ := hforeign
      obtain rfl := hcut.unexpected_eq
      exact ⟨_, .mask (foreign_of_cut hcut) hmasks, division_replicate_blank hdivision _⟩
    · rw [List.flatMap_cons, Piece.blanked_eq_self hforeign]
      exact ⟨_, hmasks.append_left text,
        .cons (hcut.masks hmasks) hdivision⟩

section Findings

variable {front other : List Char}

-- What a piece says depends on no more of the text in front of it than its bytes and newlines.
theorem Located.findings_congr (piece : Piece) (hbytes : byteLength other = byteLength front)
    (hlines : other.count '\n' = front.count '\n') :
    Located.record? ⟨other, piece⟩ = Located.record? ⟨front, piece⟩ ∧
      Located.fault? ⟨other, piece⟩ = Located.fault? ⟨front, piece⟩ := by
  have hline : Located.line ⟨other, piece⟩ = Located.line ⟨front, piece⟩ := by
    simp only [Located.line, List.count_append, hlines]
  have hstop : byteLength (other ++ piece.text) = byteLength (front ++ piece.text) := by
    rw [byteLength_append, byteLength_append, hbytes]
  unfold Located.record? Located.fault?
  rw [hline]
  simp only [hbytes, hstop, and_self]

theorem findings_replicate_blank (front : List Char) (count : Nat) :
    (locate front (List.replicate count ⟨[' '], .blank⟩)).filterMap Located.record? = [] ∧
      (locate front (List.replicate count ⟨[' '], .blank⟩)).filterMap Located.fault? = [] := by
  have hblank : ∀ l ∈ locate front (List.replicate count ⟨[' '], .blank⟩),
      l.piece = ⟨[' '], .blank⟩ :=
    fun l hl => List.eq_of_mem_replicate (piece_of_mem_locate hl)
  constructor <;> refine List.filterMap_eq_nil_iff.mpr fun l hl => ?_
  · rw [Located.record?, hblank l hl]
  · rw [Located.fault?, hblank l hl]

theorem findings_piece (piece : Piece) (hbytes : byteLength other = byteLength front)
    (hlines : other.count '\n' = front.count '\n') :
    (locate other piece.blanked).filterMap Located.record? =
        [(⟨front, piece⟩ : Located)].filterMap Located.record? ∧
      (locate other piece.blanked).filterMap Located.fault? =
        ([(⟨front, piece⟩ : Located)].filterMap Located.fault?).filter
          fun f => f.cause = .unterminatedString := by
  obtain ⟨hrecord, hfault⟩ := Located.findings_congr piece hbytes hlines
  rw [List.filterMap_cons, List.filterMap_cons, ← hrecord, ← hfault]
  obtain ⟨text, element⟩ := piece
  cases element with
  | unexpected c => exact findings_replicate_blank other c.utf8Size
  | blank | comment | token | unterminated => exact ⟨rfl, rfl⟩

theorem findings_blanked {text : List Char} {pieces : List Piece} (h : Division text pieces)
    (hbytes : byteLength other = byteLength front)
    (hlines : other.count '\n' = front.count '\n') :
    (locate other (pieces.flatMap Piece.blanked)).filterMap Located.record? =
        (locate front pieces).filterMap Located.record? ∧
      (locate other (pieces.flatMap Piece.blanked)).filterMap Located.fault? =
        ((locate front pieces).filterMap Located.fault?).filter
          fun f => f.cause = .unterminatedString := by
  induction h generalizing front other with
  | nil => exact ⟨rfl, rfl⟩
  | @cons text rest element pieces hcut hrest ih =>
    have hmasks := hcut.masks_blanked
    have hbytes' : byteLength (other ++ (Piece.blanked ⟨text, element⟩).flatMap Piece.text) =
        byteLength (front ++ text) := by
      rw [byteLength_append, byteLength_append, hbytes, hmasks.byteLength_eq]
    have hlines' : (other ++ (Piece.blanked ⟨text, element⟩).flatMap Piece.text).count '\n' =
        (front ++ text).count '\n' := by
      rw [List.count_append, List.count_append, hlines, hmasks.count_newline_eq]
    obtain ⟨hrecords, hfaults⟩ := ih hbytes' hlines'
    obtain ⟨hrecord, hfault⟩ := findings_piece ⟨text, element⟩ hbytes hlines
    have hfirst : locate front (⟨text, element⟩ :: pieces) =
        [⟨front, text, element⟩] ++ locate (front ++ text) pieces := rfl
    rw [List.flatMap_cons, locate_append, List.filterMap_append, List.filterMap_append, hfirst,
      List.filterMap_append, List.filterMap_append, List.filter_append, hrecord, hrecords, hfault,
      hfaults]
    exact ⟨rfl, rfl⟩

end Findings

-- A character that is reported as unexpected is nothing to the rest of a scan but the space that it
-- takes. With spaces in its place the same tokens are found at the same bytes and on the same lines,
-- and all that is left to report is an open string. The characters of strings and comments are no
-- part of this, for none but the foreign characters of the division is reported.
theorem scan_blanked (log : Log) (source : String) :
    let places := (Stream.ofSource source).unexpectedPlaces
    let faults := ((Stream.ofSource source).items.filterMap Item.fault?).filter
      fun f => f.cause = .unterminatedString
    (scan log (blanked source)).1.map Token.record = (scan log source).1.map Token.record ∧
      (Stream.ofSource (blanked source)).items.filterMap Item.fault? = faults ∧
      (scan log (blanked source)).2.entries = log.entries ++ faults.map ScanFault.diagnostic ∧
      ∃ pieces, Division source.toList pieces ∧
        (∀ place, place ∈ places ↔ ∃ l ∈ locate [] pieces, ∃ c,
          l.piece = ⟨[c], .unexpected c⟩ ∧ byteLength l.front = place) ∧
        ∀ l ∈ locate [] pieces, l.piece.element.isVerbatim = true →
          ∀ place ∈ places, ¬ l.Covers place := by
  intro places faults
  obtain ⟨pieces, hpieces⟩ := exists_division source.toList
  obtain ⟨other, hmasks, hdivision⟩ := hpieces.blanked
  have hother : (blanked source).toList = other :=
    (toList_blanked hpieces).trans hdivision.flatMap_text
  obtain ⟨hrecords, hfaults⟩ := @findings_blanked [] [] _ _ hpieces rfl rfl
  have hend : endRecord (blanked source).toList = endRecord source.toList := by
    rw [hother, endRecord, hmasks.byteLength_eq, hmasks.count_newline_eq]
    rfl
  rw [← hother] at hdivision
  obtain ⟨-, hfaultsOf⟩ := findings_of_division hpieces
  have hfound : (Stream.ofSource (blanked source)).items.filterMap Item.fault? = faults := by
    rw [(findings_of_division hdivision).2, hfaults, ← hfaultsOf]
  refine ⟨?_, hfound, ?_, pieces, hpieces, mem_unexpectedPlaces_iff hpieces, ?_⟩
  · rw [(scan_eq_findings hdivision log).1, hrecords, hend, (scan_eq_findings hpieces log).1]
  · rw [scan, Stream.collect_eq, hfound]
  · intro l hl hverbatim place hplace hcovers
    obtain ⟨c, hpiece⟩ := unexpected_of_covers hpieces hl hplace hcovers
    rw [hpiece] at hverbatim
    cases hverbatim

-- A foreign character of two bytes joins no halves of an operator and no digits to a point, and in a
-- string or a comment it stays.
example : blanked "<é= 3.@4 \"é@\" // é" = "<  = 3. 4 \"é@\" // é" := by decide +kernel

end Lexical

end Lox
