import Lox.Text.Utf8
import Mathlib.Data.List.Basic

namespace Lox.Text

def newline : UInt8 := 10

-- Puts a byte that ends no line in front of lines.
def extendFirst (byte : UInt8) : List Bytes → List Bytes
  | [] => [[byte]]
  | line :: more => (byte :: line) :: more

theorem lines_newline (rest : Bytes) : lines (newline :: rest) = [newline] :: lines rest := rfl

theorem lines_of_ne {byte : UInt8} (h : byte ≠ newline) (rest : Bytes) :
    lines (byte :: rest) = extendFirst byte (lines rest) := by
  have hten : byte ≠ 10 := h
  rw [lines, if_neg hten]
  cases lines rest <;> rfl

theorem lines_eq_nil_iff {bytes : Bytes} : lines bytes = [] ↔ bytes = [] := by
  constructor
  · intro h
    cases bytes with
    | nil => rfl
    | cons byte rest =>
      by_cases hbyte : byte = newline
      · rw [hbyte, lines_newline] at h
        cases h
      · rw [lines_of_ne hbyte] at h
        cases hrest : lines rest <;> rw [hrest] at h <;> cases h
  · rintro rfl
    rfl

theorem extendFirst_append {first : List Bytes} (h : first ≠ []) (byte : UInt8)
    (more : List Bytes) : extendFirst byte (first ++ more) = extendFirst byte first ++ more := by
  cases first with
  | nil => exact absurd rfl h
  | cons line first => rfl

-- Behind a newline the lines begin anew.
theorem lines_append {front : Bytes} (h : front.getLast? = some newline) (rest : Bytes) :
    lines (front ++ rest) = lines front ++ lines rest := by
  induction front with
  | nil => cases h
  | cons byte front ih =>
    cases front with
    | nil =>
      cases h
      rfl
    | cons next front =>
      rw [List.getLast?_cons_cons] at h
      have hlines := ih h
      by_cases hbyte : byte = newline
      · rw [hbyte, List.cons_append, lines_newline, hlines, lines_newline, List.cons_append]
      · have hne : lines (next :: front) ≠ [] := mt lines_eq_nil_iff.mp (List.cons_ne_nil _ _)
        rw [List.cons_append, lines_of_ne hbyte, hlines, extendFirst_append hne, lines_of_ne hbyte]

-- The first lines of a text are the lines of what they make together.
theorem lines_flatten {bytes : Bytes} {front more : List Bytes}
    (h : lines bytes = front ++ more) : lines front.flatten = front := by
  induction bytes generalizing front with
  | nil =>
    obtain ⟨rfl, -⟩ := List.append_eq_nil_iff.mp h.symm
    rfl
  | cons byte rest ih =>
    cases front with
    | nil => rfl
    | cons first front =>
      by_cases hbyte : byte = newline
      · rw [hbyte, lines_newline, List.cons_append] at h
        obtain ⟨rfl, hrest⟩ := List.cons.inj h
        rw [List.flatten_cons, List.singleton_append, lines_newline, ih hrest]
      · rw [lines_of_ne hbyte] at h
        cases hrest : lines rest with
        | nil =>
          rw [hrest, List.cons_append] at h
          obtain ⟨rfl, hnil⟩ := List.cons.inj h
          obtain ⟨rfl, -⟩ := List.append_eq_nil_iff.mp hnil.symm
          rw [List.flatten_singleton, lines_of_ne hbyte]
          rfl
        | cons line tail =>
          rw [hrest, List.cons_append] at h
          obtain ⟨rfl, rfl⟩ := List.cons.inj h
          have hfirst : lines (line :: front).flatten = line :: front := ih hrest
          rw [List.flatten_cons] at hfirst
          rw [List.flatten_cons, List.cons_append, lines_of_ne hbyte, hfirst]
          rfl

-- Bytes with a newline nowhere but at their end are a single line.
theorem lines_singleton {line : Bytes} (hne : line ≠ []) (h : newline ∉ line.dropLast) :
    lines line = [line] := by
  induction line with
  | nil => exact absurd rfl hne
  | cons byte rest ih =>
    cases rest with
    | nil =>
      by_cases hbyte : byte = newline
      · rw [hbyte]
        rfl
      · rw [lines_of_ne hbyte]
        rfl
    | cons next rest =>
      rw [List.dropLast_cons_cons, List.mem_cons, not_or] at h
      have hrest := ih (List.cons_ne_nil _ _) h.2
      rw [lines_of_ne (Ne.symm h.1), hrest]
      rfl

end Lox.Text
