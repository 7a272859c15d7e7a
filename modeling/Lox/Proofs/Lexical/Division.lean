import Lox.Proofs.Lexical.Begin

namespace Lox.Lexical

-- What is cut off the front of a text: the longest element there, everything behind a quote that
-- nothing closes, or a single character with which nothing begins.
inductive Cut : List Char → List Char → Element → Prop where
  | longest {piece rest : List Char} {element : Element} :
      Spells piece element →
      (∀ other more e, piece ++ rest = other ++ more → Spells other e →
        other.length ≤ piece.length) →
      Cut (piece ++ rest) piece element
  | unterminated {inner : List Char} :
      '"' ∉ inner → Cut ('"' :: inner) ('"' :: inner) .unterminated
  | unexpected {c : Char} {rest : List Char} :
      c ≠ '"' → (∀ other more e, c :: rest = other ++ more → ¬ Spells other e) →
      Cut (c :: rest) [c] (.unexpected c)

-- An element at the front of a text takes its first character and some more, never more than are
-- read there.
theorem length_le_of_spells {c : Char} {text other more : List Char} {element : Element}
    (htext : c :: text = other ++ more) (h : Spells other element) :
    other.length ≤ (Element.front c text).2 + 1 := by
  cases other with
  | nil => exact absurd rfl h.ne_nil
  | cons d inner =>
    rw [List.cons_append] at htext
    obtain ⟨rfl, rfl⟩ := List.cons.inj htext
    have hle := length_le_front h more
    simp only [List.length_cons]
    omega

-- An element is cut off wherever it ends.
theorem cut_of_ends {piece rest : List Char} {element : Element}
    (h : Spells piece element) (hends : Ends piece rest element) :
    Cut (piece ++ rest) piece element := by
  refine .longest h ?_
  intro other more e hother he
  obtain ⟨c, inner, rfl⟩ := List.exists_cons_of_ne_nil h.ne_nil
  rw [List.cons_append] at hother
  have hle := length_le_of_spells hother he
  rw [front_append h hends] at hle
  exact hle

theorem cut_foreign {c : Char} (h : Foreign c) (rest : List Char) :
    Cut (c :: rest) [c] (.unexpected c) := by
  refine .unexpected h.quote ?_
  intro other more e hother he
  cases other with
  | nil => exact he.ne_nil rfl
  | cons d inner =>
    rw [List.cons_append] at hother
    obtain ⟨rfl, -⟩ := List.cons.inj hother
    exact h.not_spells inner e he

theorem exists_cut (c : Char) (text : List Char) :
    ∃ inner rest element, text = inner ++ rest ∧ Cut (c :: (inner ++ rest)) (c :: inner) element := by
  obtain ⟨inner, rest, element, rfl, hspells, hends⟩ | ⟨rfl, hopen⟩ | hforeign := begins_or c text
  · exact ⟨inner, rest, element, rfl, cut_of_ends hspells hends⟩
  · refine ⟨text, [], .unterminated, (List.append_nil text).symm, ?_⟩
    rw [List.append_nil]
    exact .unterminated hopen
  · exact ⟨[], text, .unexpected c, rfl, cut_foreign hforeign text⟩

-- What is read at the front of a text is what is cut off there.
theorem front_of_cut {c : Char} {inner rest : List Char} {element : Element}
    (h : Cut (c :: (inner ++ rest)) (c :: inner) element) :
    Element.front c (inner ++ rest) = (element, inner.length) := by
  generalize hwhole : c :: (inner ++ rest) = whole at h
  generalize hpiece : c :: inner = piece at h
  cases h with
  | @longest _ rest' _ hspells hlongest =>
    subst hpiece
    rw [List.cons_append] at hwhole
    obtain rfl := List.append_cancel_left (List.cons.inj hwhole).2
    obtain ⟨inner', rest', element', htext, hspells', hends⟩ | ⟨rfl, hopen⟩ | hforeign :=
      begins_or c (inner ++ rest)
    · -- both are as long as can be, so they are the same front of the text
      have hfront := front_append hspells' hends
      have hle := length_le_front hspells rest
      have hge := hlongest (c :: inner') rest' element' (congrArg (c :: ·) htext) hspells'
      rw [htext, hfront] at hle ⊢
      simp only [List.length_cons] at hle hge
      obtain ⟨rfl, -⟩ := List.append_inj htext (by omega)
      exact (front_of_spells hspells').symm.trans (front_of_spells hspells)
    · exact absurd (List.mem_append_left rest (quote_mem_of_spells hspells)) hopen
    · exact absurd hspells (hforeign.not_spells inner element)
  | unterminated hopen =>
    obtain ⟨rfl, rfl⟩ := List.cons.inj hpiece
    have hrest : rest = [] := List.append_right_eq_self.mp (List.cons.inj hwhole).2
    rw [hrest, List.append_nil, front_quote, ofString_unterminated hopen]
  | @unexpected _ text hquote hnone =>
    obtain ⟨rfl, rfl⟩ := List.cons.inj hpiece
    obtain ⟨-, rfl⟩ := List.cons.inj hwhole
    obtain ⟨inner, rest, element, rfl, hspells, -⟩ | ⟨rfl, -⟩ | hforeign := begins_or c rest
    · exact absurd hspells (hnone (c :: inner) rest element rfl)
    · exact absurd rfl hquote
    · exact hforeign.front_eq _

theorem Cut.exists_eq {text piece : List Char} {element : Element} (h : Cut text piece element) :
    ∃ c inner rest, piece = c :: inner ∧ text = c :: (inner ++ rest) := by
  cases h with
  | @longest _ rest _ hspells _ =>
    obtain ⟨c, inner, rfl⟩ := List.exists_cons_of_ne_nil hspells.ne_nil
    exact ⟨c, inner, rest, rfl, rfl⟩
  | @unterminated inner _ => exact ⟨'"', inner, [], rfl, by rw [List.append_nil]⟩
  | @unexpected c rest _ _ => exact ⟨c, [], rest, rfl, rfl⟩

-- A text has only one front that can be cut off, because there is one that is read.
theorem Cut.unique {text piece other : List Char} {element e : Element}
    (h : Cut text piece element) (h' : Cut text other e) : other = piece ∧ e = element := by
  obtain ⟨c, inner, rest, rfl, rfl⟩ := h.exists_eq
  obtain ⟨d, inner', rest', rfl, htext⟩ := h'.exists_eq
  obtain ⟨rfl, hsplit⟩ := List.cons.inj htext
  have hfront := front_of_cut h
  rw [hsplit] at h' hfront
  obtain ⟨helement, hlength⟩ := Prod.mk.inj ((front_of_cut h').symm.trans hfront)
  obtain ⟨rfl, -⟩ := List.append_inj hsplit hlength.symm
  exact ⟨rfl, helement⟩

theorem Cut.spells {text piece : List Char} {data : TokenData}
    (h : Cut text piece (.token data)) : Spells piece (.token data) := by
  cases h with
  | longest hspells _ => exact hspells

-- A part of a source and the element that it is.
structure Piece where
  text : List Char
  element : Element

-- A text, cut up from its front until nothing is left of it.
inductive Division : List Char → List Piece → Prop where
  | nil : Division [] []
  | cons {text rest : List Char} {element : Element} {pieces : List Piece} :
      Cut (text ++ rest) text element → Division rest pieces →
      Division (text ++ rest) (⟨text, element⟩ :: pieces)

theorem Division.flatMap_text {text : List Char} {pieces : List Piece}
    (h : Division text pieces) : pieces.flatMap Piece.text = text := by
  induction h with
  | nil => rfl
  | cons hcut hrest ih => rw [List.flatMap_cons, ih]

theorem Division.eq_nil {pieces : List Piece} (h : Division [] pieces) : pieces = [] := by
  generalize hnil : ([] : List Char) = text at h
  cases h with
  | nil => rfl
  | cons hcut _ =>
    obtain ⟨c, inner, rest, -, htext⟩ := hcut.exists_eq
    cases hnil.trans htext

theorem exists_division (text : List Char) : ∃ pieces, Division text pieces := by
  induction hlength : text.length using Nat.strong_induction_on generalizing text with
  | _ length ih =>
    cases text with
    | nil => exact ⟨[], .nil⟩
    | cons c text =>
      obtain ⟨inner, rest, element, rfl, hcut⟩ := exists_cut c text
      have hless : rest.length < length := by
        simp only [List.length_cons, List.length_append] at hlength
        omega
      obtain ⟨pieces, hpieces⟩ := ih _ hless rest rfl
      have hdivision : Division ((c :: inner) ++ rest) (⟨c :: inner, element⟩ :: pieces) :=
        .cons hcut hpieces
      exact ⟨_, hdivision⟩

theorem Division.unique {text : List Char} {pieces others : List Piece}
    (h : Division text pieces) (hothers : Division text others) : others = pieces := by
  induction h generalizing others with
  | nil => exact hothers.eq_nil
  | @cons piece rest element pieces hcut hrest ih =>
    generalize htext : piece ++ rest = text at hothers
    cases hothers with
    | nil =>
      obtain ⟨c, inner, more, -, hnil⟩ := hcut.exists_eq
      cases htext.symm.trans hnil
    | @cons other more e others hother hmore =>
      rw [htext] at hcut
      obtain ⟨rfl, rfl⟩ := hcut.unique hother
      obtain rfl := List.append_cancel_left htext
      rw [ih hmore]

theorem Division.spells {text piece : List Char} {pieces : List Piece} {data : TokenData}
    (h : Division text pieces) (hmem : ⟨piece, .token data⟩ ∈ pieces) :
    Spells piece (.token data) := by
  induction h with
  | nil => cases hmem
  | cons hcut hrest ih =>
    rcases List.mem_cons.mp hmem with heq | hmem
    · obtain ⟨rfl, rfl⟩ := Piece.mk.inj heq
      exact hcut.spells
    · exact ih hmem

end Lox.Lexical
