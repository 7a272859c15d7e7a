import Lox.Proofs.Lexical.Line
import Lox.Proofs.Lexical.Newline

namespace Lox

open Lox.Text

-- Where a character lies that is reported as unexpected. It is the last one that was read when its
-- fault is yielded, so that the stream behind it tells its place.
def Item.unexpectedPlace? : Item → Stream → Option Nat
  | .fault ⟨.unexpectedCharacter c, _⟩, .reading p => some (p.offset - c.utf8Size)
  | _, _ => none

namespace Stream

-- Where the characters lie that are still to be reported as unexpected.
def unexpectedPlaces (s : Stream) : List Nat :=
  match _h : s.next? with
  | none => []
  | some (item, rest) => (item.unexpectedPlace? rest).toList ++ rest.unexpectedPlaces
termination_by s.size
decreasing_by exact size_of_next? _h

theorem unexpectedPlaces_of_next? {s t : Stream} {item : Item} (h : s.next? = some (item, t)) :
    s.unexpectedPlaces = (item.unexpectedPlace? t).toList ++ t.unexpectedPlaces := by
  rw [unexpectedPlaces]
  split <;> simp_all

theorem unexpectedPlaces_of_next?_none {s : Stream} (h : s.next? = none) :
    s.unexpectedPlaces = [] := by
  rw [unexpectedPlaces]
  split <;> simp_all

theorem unexpectedPlaces_congr {s t : Stream} (h : s.next? = t.next?) :
    s.unexpectedPlaces = t.unexpectedPlaces := by
  cases hnext : t.next? with
  | none => rw [unexpectedPlaces_of_next?_none hnext, unexpectedPlaces_of_next?_none (h.trans hnext)]
  | some found => rw [unexpectedPlaces_of_next? hnext, unexpectedPlaces_of_next? (h.trans hnext)]

end Stream

-- What a source holds without reading it: comments and strings, also a string that is never closed.
def Element.isVerbatim : Element → Bool
  | comment | unterminated | token (.str _) => true
  | _ => false

namespace Lexical

-- A byte of a text that is part of the piece.
def Located.Covers (l : Located) (place : Nat) : Prop :=
  byteLength l.front ≤ place ∧ place < byteLength (l.front ++ l.piece.text)

-- Where the character lies that a piece is, if nothing begins with it.
def Located.unexpectedPlace? (l : Located) : Option Nat :=
  match l.piece.element with
  | .unexpected _ => some (byteLength l.front)
  | _ => none

theorem front_le_of_mem_locate {front : List Char} {pieces : List Piece} {l : Located}
    (h : l ∈ locate front pieces) : byteLength front ≤ byteLength l.front := by
  induction pieces generalizing front with
  | nil => cases h
  | cons piece pieces ih =>
    rcases List.mem_cons.mp h with rfl | h
    · exact Nat.le_refl _
    · have hle := ih h
      rw [byteLength_append] at hle
      omega

-- Pieces lie one behind the other.
theorem eq_or_behind_of_mem_locate {front : List Char} {pieces : List Piece} {l l' : Located}
    (h : l ∈ locate front pieces) (h' : l' ∈ locate front pieces) :
    l = l' ∨ byteLength (l.front ++ l.piece.text) ≤ byteLength l'.front ∨
      byteLength (l'.front ++ l'.piece.text) ≤ byteLength l.front := by
  induction pieces generalizing front with
  | nil => cases h
  | cons piece pieces ih =>
    rcases List.mem_cons.mp h with rfl | h <;> rcases List.mem_cons.mp h' with rfl | h'
    · exact .inl rfl
    · exact .inr (.inl (front_le_of_mem_locate h'))
    · exact .inr (.inr (front_le_of_mem_locate h))
    · exact ih h h'

theorem Division.unexpected_eq {text : List Char} {pieces : List Piece} {piece : Piece} {c : Char}
    (h : Division text pieces) (hmem : piece ∈ pieces) (helement : piece.element = .unexpected c) :
    piece = ⟨[c], .unexpected c⟩ ∧ Foreign c := by
  induction h with
  | nil => cases hmem
  | cons hcut hrest ih =>
    rcases List.mem_cons.mp hmem with rfl | hmem
    · obtain rfl : _ = Element.unexpected c := helement
      obtain rfl := hcut.unexpected_eq
      exact ⟨rfl, foreign_of_cut hcut⟩
    · exact ih hmem

section Places

variable {source : String} {pieces : List Piece}

theorem unexpectedPlaces_of_division {front rest : List Char} (h : Division rest pieces)
    (hsource : source.toList = front ++ rest) :
    (Stream.reading (.behind source front)).unexpectedPlaces =
      (locate front pieces).filterMap Located.unexpectedPlace? := by
  induction h generalizing front with
  | nil =>
    rw [List.append_nil] at hsource
    have hend : (Position.behind source front).rest = [] :=
      Position.rest_behind (hsource.trans (List.append_nil front).symm)
    rw [Stream.unexpectedPlaces_of_next? (Stream.next?_end hend),
      Stream.unexpectedPlaces_of_next?_none Stream.next?_finished]
    rfl
  | @cons text rest element pieces hcut hrest ih =>
    have hbehind : source.toList = (front ++ text) ++ rest := by rw [hsource, List.append_assoc]
    have hnext := next?_of_cut hsource hcut
    rw [locate, ← List.singleton_append, List.filterMap_append, ← ih hbehind]
    cases element with
    | blank | comment => exact Stream.unexpectedPlaces_congr hnext
    | token | unterminated => exact Stream.unexpectedPlaces_of_next? hnext
    | unexpected c =>
      obtain rfl := hcut.unexpected_eq
      have hplace : byteLength (front ++ [c]) - c.utf8Size = byteLength front := by
        rw [byteLength_append, byteLength_cons, byteLength_nil]
        omega
      rw [Stream.unexpectedPlaces_of_next? hnext]
      exact congrArg (· :: _) hplace

-- The reported places are those of the foreign characters in the division of the source.
theorem mem_unexpectedPlaces_iff (h : Division source.toList pieces) (place : Nat) :
    place ∈ (Stream.ofSource source).unexpectedPlaces ↔
      ∃ l ∈ locate [] pieces, ∃ c, l.piece = ⟨[c], .unexpected c⟩ ∧ byteLength l.front = place := by
  rw [Stream.ofSource, ← Position.behind_nil,
    unexpectedPlaces_of_division h (List.nil_append source.toList).symm, List.mem_filterMap]
  constructor
  · rintro ⟨l, hl, hplace⟩
    unfold Located.unexpectedPlace? at hplace
    split at hplace
    · rename_i c helement
      obtain ⟨hpiece, -⟩ := h.unexpected_eq (piece_of_mem_locate hl) helement
      exact ⟨l, hl, c, hpiece, Option.some.inj hplace⟩
    · cases hplace
  · rintro ⟨l, hl, c, hpiece, hplace⟩
    refine ⟨l, hl, ?_⟩
    rw [Located.unexpectedPlace?, hpiece, ← hplace]

-- No reported place lies in any other piece, be it a string or a comment.
theorem unexpected_of_covers (h : Division source.toList pieces) {l : Located}
    (hl : l ∈ locate [] pieces) {place : Nat}
    (hplace : place ∈ (Stream.ofSource source).unexpectedPlaces) (hcovers : l.Covers place) :
    ∃ c, l.piece = ⟨[c], .unexpected c⟩ := by
  obtain ⟨l', hl', c, hpiece, rfl⟩ := (mem_unexpectedPlaces_iff h place).mp hplace
  obtain ⟨hstart, hstop⟩ := hcovers
  have hsize := c.utf8Size_pos
  have hlength : byteLength (l'.front ++ l'.piece.text) = byteLength l'.front + c.utf8Size := by
    rw [hpiece, byteLength_append, byteLength_cons, byteLength_nil, Nat.add_zero]
  obtain rfl | hle | hle := eq_or_behind_of_mem_locate hl hl'
  · exact ⟨c, hpiece⟩
  · omega
  · omega

end Places

end Lexical

end Lox
