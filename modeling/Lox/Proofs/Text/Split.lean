import Mathlib.Data.List.Basic

namespace Lox.Text

-- A text, cut at its newlines. The empty text has no line.
def textLines (text : String) : List String :=
  if text = "" then [] else (text.split '\n').toList.map String.Slice.copy

-- Lines that are not empty are found again in what they make with newlines between them.
theorem textLines_intercalate {parts : List String} (hbreak : ∀ part ∈ parts, '\n' ∉ part.toList)
    (hempty : "" ∉ parts) : textLines ("\n".intercalate parts) = parts := by
  have hsplit : (("\n".intercalate parts).split '\n').toList.map String.Slice.copy =
      if parts = [] then [""] else parts := String.toList_split_intercalate hbreak
  by_cases hnil : parts = []
  · subst hnil
    rfl
  · rw [if_neg hnil] at hsplit
    have hne : "\n".intercalate parts ≠ "" := by
      intro hjoin
      have hnone : (("" : String).split '\n').toList.map String.Slice.copy = [""] :=
        @String.toList_split_intercalate '\n' [] (List.forall_mem_nil _)
      rw [hjoin, hnone] at hsplit
      rw [← hsplit] at hempty
      exact hempty List.mem_cons_self
    rw [textLines, if_neg hne, hsplit]

-- Words by which the members of a list are found again are all different.
theorem eq_of_find?_eq {α : Type} {all : List α} {word : α → String}
    (hfind : ∀ a, all.find? (fun other => word other = word a) = some a) {a b : α}
    (h : word a = word b) : a = b := by
  have hb := hfind b
  rw [← h, hfind a] at hb
  exact Option.some.inj hb

theorem isDigit_of_mem_toString {n : Nat} {c : Char} (h : c ∈ (toString n).toList) :
    c.isDigit = true := by
  rw [Nat.toString_eq_ofList_toDigits, String.toList_ofList] at h
  exact Nat.isDigit_of_mem_toDigits (by decide) (by decide) h

theorem eq_of_toList_toString {m n : Nat} (h : (toString m).toList = (toString n).toList) :
    m = n := by
  rw [Nat.toString_eq_ofList_toDigits, Nat.toString_eq_ofList_toDigits, String.toList_ofList,
    String.toList_ofList] at h
  have hvalue := congrArg (Nat.ofDigitChars 10 · 0) h
  rwa [Nat.ofDigitChars_toDigits (by decide) (by decide),
    Nat.ofDigitChars_toDigits (by decide) (by decide)] at hvalue

-- What ends in front of the first stop is told apart from the rest.
theorem eq_of_append_stop {stop : Char} {front other rest behind : List Char}
    (hfront : stop ∉ front) (hother : stop ∉ other)
    (h : front ++ stop :: rest = other ++ stop :: behind) : front = other ∧ rest = behind := by
  have hsplit := congrArg (List.splitOn stop) h
  rw [List.splitOn_append_cons_self_of_not_mem hfront,
    List.splitOn_append_cons_self_of_not_mem hother] at hsplit
  obtain rfl := (List.cons.inj hsplit).1
  exact ⟨rfl, (List.cons.inj (List.append_cancel_left h)).2⟩

end Lox.Text
