import Lox.Proofs.Lexical.Items

namespace Lox

open Lox.Text

-- Two numbers are told apart by their bits here, not by their values.
deriving instance DecidableEq for Number.Binary64
deriving instance DecidableEq for TokenData

-- What a token says about itself without its source: its meaning and its text, the line on which
-- it ends, and the bytes between which it lies.
structure Record where
  data : TokenData
  lexeme : String
  line : Nat
  start : Nat
  stop : Nat
  deriving DecidableEq

-- The same further down in a text, behind so many more bytes and newlines.
def Record.shift (bytes lines : Nat) (r : Record) : Record :=
  { r with line := r.line + lines, start := r.start + bytes, stop := r.stop + bytes }

def Token.record (t : Token) : Record :=
  ⟨t.data, t.lexeme, t.line, t.span.start.offset, t.span.stop.offset⟩

def ScanFault.shift (lines : Nat) (fault : ScanFault) : ScanFault :=
  { fault with line := fault.line + lines }

def Diagnostic.shift (lines : Nat) (d : Diagnostic) : Diagnostic :=
  { d with line := d.line + lines }

namespace Lexical

-- A piece and the text in front of it.
structure Located where
  front : List Char
  piece : Piece

-- Pieces in a row, the first of them behind a front of a text.
def locate (front : List Char) : List Piece → List Located
  | [] => []
  | piece :: pieces => ⟨front, piece⟩ :: locate (front ++ piece.text) pieces

namespace Located

def behind (before : List Char) (l : Located) : Located := ⟨before ++ l.front, l.piece⟩

-- The line on which the piece ends.
def line (l : Located) : Nat := 1 + (l.front ++ l.piece.text).count '\n'

def record? (l : Located) : Option Record :=
  match l.piece.element with
  | .token data =>
    some ⟨data, String.ofList l.piece.text, l.line, byteLength l.front,
      byteLength (l.front ++ l.piece.text)⟩
  | _ => none

def fault? (l : Located) : Option ScanFault :=
  match l.piece.element with
  | .unterminated => some ⟨.unterminatedString, l.line⟩
  | .unexpected c => some ⟨.unexpectedCharacter c, l.line⟩
  | _ => none

theorem line_behind (before : List Char) (l : Located) :
    (l.behind before).line = l.line + before.count '\n' := by
  simp only [line, behind, List.count_append]
  omega

theorem record?_behind (before : List Char) (l : Located) :
    (l.behind before).record? =
      l.record?.map (Record.shift (byteLength before) (before.count '\n')) := by
  have hstart : byteLength (before ++ l.front) = byteLength l.front + byteLength before := by
    rw [byteLength_append, Nat.add_comm]
  have hstop : byteLength (before ++ l.front ++ l.piece.text) =
      byteLength (l.front ++ l.piece.text) + byteLength before := by
    rw [List.append_assoc, byteLength_append, Nat.add_comm]
  have hline := line_behind before l
  unfold record?
  rw [hline]
  simp only [behind, hstart, hstop]
  cases l.piece.element <;> rfl

theorem fault?_behind (before : List Char) (l : Located) :
    (l.behind before).fault? = l.fault?.map (ScanFault.shift (before.count '\n')) := by
  have hline := line_behind before l
  unfold fault?
  rw [hline]
  simp only [behind]
  cases l.piece.element <;> rfl

end Located

theorem locate_append (front : List Char) (pieces others : List Piece) :
    locate front (pieces ++ others) =
      locate front pieces ++ locate (front ++ pieces.flatMap Piece.text) others := by
  induction pieces generalizing front with
  | nil => simp [locate]
  | cons piece pieces ih =>
    rw [List.cons_append, locate, ih, List.flatMap_cons, locate, List.cons_append,
      List.append_assoc]

theorem locate_behind (before front : List Char) (pieces : List Piece) :
    locate (before ++ front) pieces = (locate front pieces).map (Located.behind before) := by
  induction pieces generalizing front with
  | nil => rfl
  | cons piece pieces ih => rw [locate, List.append_assoc, ih, locate, List.map_cons, Located.behind]

theorem piece_of_mem_locate {front : List Char} {pieces : List Piece} {l : Located}
    (h : l ∈ locate front pieces) : l.piece ∈ pieces := by
  induction pieces generalizing front with
  | nil => cases h
  | cons piece pieces ih =>
    rcases List.mem_cons.mp h with rfl | h
    · exact List.mem_cons_self
    · exact List.mem_cons_of_mem _ (ih h)

theorem exists_mem_locate (front : List Char) {pieces : List Piece} {piece : Piece}
    (h : piece ∈ pieces) : ∃ l ∈ locate front pieces, l.piece = piece := by
  induction pieces generalizing front with
  | nil => cases h
  | cons first pieces ih =>
    rcases List.mem_cons.mp h with rfl | h
    · exact ⟨_, List.mem_cons_self, rfl⟩
    · obtain ⟨l, hl, hpiece⟩ := ih (front ++ first.text) h
      exact ⟨l, List.mem_cons_of_mem _ hl, hpiece⟩

-- The text of a token lies where its piece does.
theorem record_behind {source : String} {front text rest : List Char} (data : TokenData)
    (h : source.toList = front ++ (text ++ rest)) :
    (⟨front, text, .token data⟩ : Located).record? =
      some (Token.record ⟨data, Span.behind source front text⟩) := by
  have hlexeme : Token.lexeme ⟨data, Span.behind source front text⟩ = String.ofList text :=
    Span.lexeme_behind h
  rw [Token.record, hlexeme]
  rfl

-- What pieces yield shows nothing of a source but where they lie in it.
theorem findings_of_yields {source : String} {front : List Char} {pieces : List Piece}
    (hsource : source.toList = front ++ pieces.flatMap Piece.text) :
    ((yields source front pieces).filterMap Item.token?).map Token.record =
        (locate front pieces).filterMap Located.record? ∧
      (yields source front pieces).filterMap Item.fault? =
        (locate front pieces).filterMap Located.fault? := by
  induction pieces generalizing front with
  | nil => exact ⟨rfl, rfl⟩
  | cons piece pieces ih =>
    rw [List.flatMap_cons] at hsource
    have hnext : source.toList = (front ++ piece.text) ++ pieces.flatMap Piece.text := by
      rw [hsource, List.append_assoc]
    obtain ⟨hrecords, hfaults⟩ := ih hnext
    rw [yields, List.filterMap_append, List.map_append, hrecords, List.filterMap_append, hfaults,
      locate]
    obtain ⟨text, element⟩ := piece
    cases element with
    | token data =>
      have hrecord := record_behind data hsource
      rw [List.filterMap_cons_some hrecord]
      exact ⟨rfl, rfl⟩
    | blank | comment | unterminated | unexpected => exact ⟨rfl, rfl⟩

-- What the end of input says about itself behind a text.
def endRecord (text : List Char) : Record :=
  ⟨.eof, "", 1 + text.count '\n', byteLength text, byteLength text⟩

-- What the items of a source say, in terms of its division.
theorem findings_of_division {source : String} {pieces : List Piece}
    (h : Division source.toList pieces) :
    ((Stream.ofSource source).items.filterMap Item.token?).map Token.record =
        (locate [] pieces).filterMap Located.record? ++ [endRecord source.toList] ∧
      (Stream.ofSource source).items.filterMap Item.fault? =
        (locate [] pieces).filterMap Located.fault? := by
  have hsource : source.toList = [] ++ pieces.flatMap Piece.text := h.flatMap_text.symm
  obtain ⟨hrecords, hfaults⟩ := findings_of_yields hsource
  have hend : Token.record (.eofAt (.behind source source.toList)) = endRecord source.toList := by
    have hlexeme : Token.lexeme (.eofAt (.behind source source.toList)) = "" :=
      Span.lexeme_emptyAt _
    rw [Token.record, hlexeme]
    rfl
  rw [items_eq_of_division h, List.filterMap_append, List.map_append, hrecords,
    List.filterMap_append, hfaults, ← hend]
  exact ⟨rfl, List.append_nil _⟩

-- What a scan finds, in terms of the division of the source.
theorem scan_eq_findings {source : String} {pieces : List Piece}
    (h : Division source.toList pieces) (log : Log) :
    (scan log source).1.map Token.record =
        (locate [] pieces).filterMap Located.record? ++ [endRecord source.toList] ∧
      (scan log source).2.entries =
        log.entries ++ ((locate [] pieces).filterMap Located.fault?).map ScanFault.diagnostic := by
  obtain ⟨hrecords, hfaults⟩ := findings_of_division h
  rw [scan, Stream.collect_eq, hfaults]
  exact ⟨hrecords, rfl⟩

end Lexical

end Lox
