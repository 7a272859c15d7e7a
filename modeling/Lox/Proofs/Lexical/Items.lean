import Lox.Proofs.Lexical.Division
import Lox.Proofs.Text.Place
import Lox.Token.Stream

namespace Lox

open Lox.Text

namespace Stream

theorem items_of_next? {s t : Stream} {item : Item} (h : s.next? = some (item, t)) :
    s.items = item :: t.items := by
  rw [items]
  split <;> simp_all

theorem items_of_next?_none {s : Stream} (h : s.next? = none) : s.items = [] := by
  rw [items]
  split <;> simp_all

theorem items_congr {s t : Stream} (h : s.next? = t.next?) : s.items = t.items := by
  cases hnext : t.next? with
  | none => rw [items_of_next?_none hnext, items_of_next?_none (h.trans hnext)]
  | some found => rw [items_of_next? hnext, items_of_next? (h.trans hnext)]

theorem next?_end {p : Position} (h : p.rest = []) :
    (reading p).next? = some (.token (.eofAt p), finished) := by
  rw [next?]
  split <;> simp_all

theorem next?_finished : finished.next? = none := by rw [next?]

-- Only the end of input is left at the end of a source.
theorem items_end {p : Position} (h : p.rest = []) :
    (reading p).items = [.token (.eofAt p)] := by
  rw [items_of_next? (next?_end h), items_of_next?_none next?_finished]

theorem next?_front {p : Position} {c : Char} {text : List Char} (h : p.rest = c :: text) :
    let stop := p.skip ((Element.front c text).2 + 1)
    (reading p).next? = ((Element.front c text).1.item? p stop).elim (reading stop).next?
      fun item => some (item, reading stop) := by
  rw [next?]
  split
  · simp_all
  · rename_i hrest
    obtain ⟨rfl, rfl⟩ := List.cons.inj (h.symm.trans hrest)
    cases hitem : (Element.front c text).1.item? p (p.skip ((Element.front c text).2 + 1)) <;>
      simp only [hitem, Option.elim_none, Option.elim_some]

-- What is read first yields its item if it has one, and reading goes on behind it.
theorem items_front {p : Position} {c : Char} {text : List Char} (h : p.rest = c :: text) :
    let stop := p.skip ((Element.front c text).2 + 1)
    (reading p).items =
      ((Element.front c text).1.item? p stop).toList ++ (reading stop).items := by
  intro stop
  have hnext : (reading p).next? = ((Element.front c text).1.item? p stop).elim
      (reading stop).next? fun item => some (item, reading stop) := next?_front h
  cases hitem : (Element.front c text).1.item? p stop with
  | none =>
    rw [hitem, Option.elim_none] at hnext
    rw [items_congr hnext]
    rfl
  | some item =>
    rw [hitem, Option.elim_some] at hnext
    rw [items_of_next? hnext]
    rfl

-- Tokens and faults go different ways, and each keep their order.
theorem collect_eq (s : Stream) (log : Log) :
    s.collect log = (s.items.filterMap Item.token?,
      ⟨log.entries ++ (s.items.filterMap Item.fault?).map ScanFault.diagnostic⟩) := by
  fun_induction collect s log with
  | case1 s log hnext => simp [items_of_next?_none hnext]
  | case2 s log t rest hnext tokens log' hcollect ih =>
    obtain ⟨rfl, rfl⟩ := Prod.mk.inj (hcollect.symm.trans ih)
    rw [items_of_next? hnext]
    rfl
  | case3 s log f rest hnext ih =>
    have htokens : (Item.fault f :: rest.items).filterMap Item.token? =
        rest.items.filterMap Item.token? := rfl
    have hfaults : (Item.fault f :: rest.items).filterMap Item.fault? =
        f :: rest.items.filterMap Item.fault? := rfl
    rw [ih, items_of_next? hnext, htokens, hfaults, List.map_cons, Log.push, List.append_assoc,
      List.singleton_append]

end Stream

namespace Lexical

-- What a piece behind a front of a source has to yield: nothing if it is a blank or a comment, else a
-- token at just the bytes of the piece, or the fault that it is, on the line on which it ends.
def Piece.item? (source : String) (front : List Char) : Piece → Option Item
  | ⟨_, .blank⟩ => none
  | ⟨_, .comment⟩ => none
  | ⟨text, .token data⟩ => some (.token ⟨data, .behind source front text⟩)
  | ⟨text, .unterminated⟩ => some (.fault ⟨.unterminatedString, 1 + (front ++ text).count '\n'⟩)
  | ⟨text, .unexpected c⟩ =>
    some (.fault ⟨.unexpectedCharacter c, 1 + (front ++ text).count '\n'⟩)

-- That is what an element yields between the two ends of the piece.
theorem item?_behind (source : String) (front text : List Char) (element : Element) :
    element.item? (.behind source front) (.behind source (front ++ text)) =
      Piece.item? source front ⟨text, element⟩ := by
  cases element <;> rfl

-- What pieces in a row yield, the first of them behind a front of a source.
def yields (source : String) (front : List Char) : List Piece → List Item
  | [] => []
  | piece :: pieces =>
    (piece.item? source front).toList ++ yields source (front ++ piece.text) pieces

theorem items_of_division {source : String} {front rest : List Char} {pieces : List Piece}
    (h : Division rest pieces) (hsource : source.toList = front ++ rest) :
    (Stream.reading (.behind source front)).items =
      yields source front pieces ++ [.token (.eofAt (.behind source source.toList))] := by
  induction h generalizing front with
  | nil =>
    rw [List.append_nil] at hsource
    have hend : (Position.behind source front).rest = [] :=
      Position.rest_behind (hsource.trans (List.append_nil front).symm)
    rw [Stream.items_end hend, hsource]
    rfl
  | @cons text rest element pieces hcut hrest ih =>
    obtain ⟨c, inner, more, rfl, htext⟩ := hcut.exists_eq
    rw [List.cons_append] at hcut
    have hplace : (Position.behind source front).rest = c :: (inner ++ rest) :=
      Position.rest_behind hsource
    have hnext : source.toList = (front ++ c :: inner) ++ rest := by
      rw [hsource, List.append_assoc]
    have hstop := Position.skip_behind hsource
    rw [Stream.items_front hplace, front_of_cut hcut, ← List.length_cons, hstop, ih hnext,
      item?_behind, ← List.append_assoc]
    rfl

-- The end of input is the item behind those of the pieces.
theorem items_eq_of_division {source : String} {pieces : List Piece}
    (h : Division source.toList pieces) :
    (Stream.ofSource source).items =
      yields source [] pieces ++ [.token (.eofAt (.behind source source.toList))] :=
  items_of_division h (List.nil_append source.toList).symm

-- Reading a source cuts it up into its only division. Every piece but the blanks and the comments
-- yields one item at just the bytes of the piece, and the end of input comes last.
theorem items_divide_source (source : String) :
    ∃ pieces : List Piece,
      (Division source.toList pieces ∧
        ∀ others, Division source.toList others → others = pieces) ∧
      pieces.flatMap Piece.text = source.toList ∧
      (∀ before piece after, pieces = before ++ piece :: after →
        let front := before.flatMap Piece.text
        let span := Span.behind source front piece.text
        span.start.offset = byteLength front ∧
          span.stop.offset = span.start.offset + byteLength piece.text ∧
          span.lexeme = String.ofList piece.text ∧
          span.endLine = 1 + (front ++ piece.text).count '\n') ∧
      let last := Span.behind source source.toList []
      (Stream.ofSource source).items = yields source [] pieces ++ [.token ⟨.eof, last⟩] ∧
        last.lexeme = "" ∧ last.start.offset = source.utf8ByteSize ∧
        last.stop.offset = source.utf8ByteSize := by
  obtain ⟨pieces, hpieces⟩ := exists_division source.toList
  refine ⟨pieces, ⟨hpieces, fun others h => hpieces.unique h⟩, hpieces.flatMap_text, ?_, ?_⟩
  · rintro before piece after rfl
    have hwhole := hpieces.flatMap_text
    rw [List.flatMap_append, List.flatMap_cons] at hwhole
    exact ⟨rfl, byteLength_append _ _, Span.lexeme_behind hwhole.symm, rfl⟩
  · intro last
    have hlast : last = .emptyAt (.behind source source.toList) := by
      simp only [last, Span.behind, List.append_nil, Span.emptyAt]
    have hsize := byteLength_toList source
    rw [items_eq_of_division hpieces, hlast]
    exact ⟨rfl, Span.lexeme_emptyAt _, hsize, hsize⟩

-- What is seen of a token, and of a piece that is one: the meaning and the text.
def view (t : Token) : TokenData × String := (t.data, t.lexeme)

def Piece.view? : Piece → Option (TokenData × String)
  | ⟨text, .token data⟩ => some (data, String.ofList text)
  | _ => none

theorem tokens_of_yields {source : String} {front : List Char} {pieces : List Piece}
    (hsource : source.toList = front ++ pieces.flatMap Piece.text) :
    ((yields source front pieces).filterMap Item.token?).map view =
      pieces.filterMap Piece.view? := by
  induction pieces generalizing front with
  | nil => rfl
  | cons piece pieces ih =>
    rw [List.flatMap_cons] at hsource
    have hnext : source.toList = (front ++ piece.text) ++ pieces.flatMap Piece.text := by
      rw [hsource, List.append_assoc]
    have hlexeme := Span.lexeme_behind hsource
    rw [yields, List.filterMap_append, List.map_append, ih hnext]
    obtain ⟨text, element⟩ := piece
    cases element with
    | token data =>
      have hview : view ⟨data, Span.behind source front text⟩ = (data, String.ofList text) :=
        congrArg (data, ·) hlexeme
      rw [List.filterMap_cons_some (show Piece.view? ⟨text, .token data⟩ = _ from rfl), ← hview]
      rfl
    | _ => rfl

theorem faults_of_yields {source : String} {front : List Char} {pieces : List Piece}
    (h : ∀ piece ∈ pieces, Spells piece.text piece.element) :
    (yields source front pieces).filterMap Item.fault? = [] := by
  induction pieces generalizing front with
  | nil => rfl
  | cons piece pieces ih =>
    have hrest : (yields source (front ++ piece.text) pieces).filterMap Item.fault? = [] :=
      ih fun other hother => h other (List.mem_cons_of_mem _ hother)
    have hspells := h piece List.mem_cons_self
    rw [yields, List.filterMap_append, hrest, List.append_nil]
    obtain ⟨text, element⟩ := piece
    cases element with
    | unterminated => exact absurd rfl hspells.not_unterminated
    | unexpected c => exact absurd rfl (hspells.not_unexpected c)
    | _ => rfl

-- The tokens of a source are those of its division, and the end of input.
theorem scan_of_division {source : String} {pieces : List Piece}
    (h : Division source.toList pieces) (log : Log) :
    (scan log source).1.map view = pieces.filterMap Piece.view? ++ [(.eof, "")] := by
  have hsource : source.toList = [] ++ pieces.flatMap Piece.text := h.flatMap_text.symm
  have hend : view (.eofAt (.behind source source.toList)) = (.eof, "") :=
    congrArg (TokenData.eof, ·) (Span.lexeme_emptyAt _)
  rw [scan, Stream.collect_eq, items_eq_of_division h, List.filterMap_append, List.map_append,
    tokens_of_yields hsource, ← hend]
  rfl

-- Nothing is reported about a source without faults.
theorem log_of_division {source : String} {pieces : List Piece}
    (h : Division source.toList pieces)
    (hspells : ∀ piece ∈ pieces, Spells piece.text piece.element) (log : Log) :
    (scan log source).2 = log := by
  have hfaults : (yields source [] pieces ++
      [Item.token (.eofAt (.behind source source.toList))]).filterMap Item.fault? = [] := by
    rw [List.filterMap_append, faults_of_yields hspells]
    rfl
  rw [scan, Stream.collect_eq, items_eq_of_division h, hfaults, List.map_nil, List.append_nil]

end Lexical

end Lox
