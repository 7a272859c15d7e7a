import Lox.Text.Span
import Mathlib.Data.List.Basic

namespace Lox.Text

theorem byteLength_toList (s : String) : byteLength s.toList = s.utf8ByteSize := by
  obtain ⟨chars, rfl⟩ := s.exists_eq_ofList
  rw [String.toList_ofList]
  induction chars with
  | nil => rfl
  | cons c chars ih => simp [byteLength_cons, ih]

namespace Position

-- The place behind a front of a text.
def behind (source : String) (front : List Char) : Position where
  source
  rest := source.toList.drop front.length
  offset := byteLength front
  line := 1 + front.count '\n'

theorem skip_skip (more count : Nat) (p : Position) :
    skip more (skip count p) = skip (count + more) p := by
  induction count generalizing p with
  | zero => rw [skip, Nat.zero_add]
  | succ count ih => rw [skip_succ, ih, Nat.succ_add, skip_succ]

theorem behind_nil (source : String) : behind source [] = start source := rfl

variable {source : String} {front text rest : List Char}

theorem rest_behind (h : source.toList = front ++ rest) : (behind source front).rest = rest := by
  simp [behind, h]

theorem step_behind {c : Char} (h : source.toList = front ++ c :: rest) :
    (behind source front).step = behind source (front ++ [c]) := by
  have hrest := rest_behind h
  have hnext : source.toList = (front ++ [c]) ++ rest := by rw [h, List.append_cons]
  have hrest' := rest_behind hnext
  have hoffset : byteLength (front ++ [c]) = byteLength front + c.utf8Size := by
    simp [byteLength_append, byteLength_cons, byteLength_nil]
  have hline : 1 + (front ++ [c]).count '\n' =
      if c = '\n' then 1 + front.count '\n' + 1 else 1 + front.count '\n' := by
    rw [List.count_append, List.count_singleton]
    split <;> simp_all [Nat.add_assoc]
  unfold step
  rw [hrest]
  simp only [behind] at hrest' ⊢
  rw [hrest', hoffset, hline]

-- Skipping a stretch of the text leads behind it.
theorem skip_behind (h : source.toList = front ++ (text ++ rest)) :
    skip text.length (behind source front) = behind source (front ++ text) := by
  induction text generalizing front with
  | nil => rw [List.append_nil, List.length_nil, skip]
  | cons c text ih =>
    rw [List.length_cons, skip_succ, step_behind h, ih, List.append_assoc, List.singleton_append]
    rw [h, List.append_assoc, List.singleton_append, List.cons_append]

-- However far it goes, a skip ends behind some front.
theorem skip_eq_behind (h : source.toList = front ++ rest) (count : Nat) :
    skip count (behind source front) = behind source (front ++ rest.take count) := by
  induction count generalizing front rest with
  | zero => rw [skip, List.take_zero, List.append_nil]
  | succ count ih =>
    cases rest with
    | nil => rw [skip_end (rest_behind h), List.take_nil, List.append_nil]
    | cons c rest =>
      have hnext : source.toList = (front ++ [c]) ++ rest := by rw [h, List.append_cons]
      rw [skip_succ, step_behind h, ih hnext, List.take_succ_cons, ← List.append_cons]

end Position

namespace Span

theorem lexeme_emptyAt (p : Position) : (emptyAt p).lexeme = "" := by
  have hnone : takeBytes 0 p.rest = [] := takeBytes_append [] p.rest
  simp [lexeme, emptyAt, hnone]

-- The stretch of a text that lies behind a front of it.
def behind (source : String) (front text : List Char) : Span :=
  ⟨.behind source front, .behind source (front ++ text)⟩

variable {source : String} {front text rest : List Char}

theorem lexeme_behind (h : source.toList = front ++ (text ++ rest)) :
    (behind source front text).lexeme = String.ofList text := by
  have hsize : byteLength (front ++ text) - byteLength front = byteLength text := by
    rw [byteLength_append]
    omega
  have hrest : (Position.behind source front).rest = text ++ rest := Position.rest_behind h
  simp only [lexeme, behind, hrest]
  simp only [Position.behind, hsize, takeBytes_append]

theorem whole_eq_behind (source : String) : whole source = behind source [] source.toList := by
  have hall : source.toList = [] ++ (source.toList ++ []) := by simp
  have hskip := Position.skip_behind hall
  rw [Position.behind_nil] at hskip
  exact congrArg (mk _) hskip

theorem lexeme_whole (source : String) : (whole source).lexeme = source := by
  have hall : source.toList = [] ++ (source.toList ++ []) := by simp
  rw [whole_eq_behind, lexeme_behind hall, String.ofList_toList]

end Span

end Lox.Text
