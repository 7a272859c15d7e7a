import Lox.Proofs.Lexical.Eager
import Lox.Proofs.Lexical.Layout
import Lox.Proofs.Run.Cut

namespace Lox

open Lox.Lexical Lox.Text

namespace Kind

-- The names of all kinds are different words.
theorem eq_of_name {kind other : Kind} (h : kind.name = other.name) : kind = other := by
  have hfind (kind : Kind) : all.find? (fun other => other.name = kind.name) = some kind := by
    cases kind with
    | symbol s => cases s <;> rfl
    | keyword k => cases k <;> rfl
    | identifier | str | number | eof => rfl
  exact eq_of_find?_eq hfind h

theorem space_notMem_name (kind : Kind) : ' ' ∉ kind.name.toList := by
  cases kind with
  | symbol s => cases s <;> decide
  | keyword k => cases k <;> decide
  | identifier | str | number | eof => decide

end Kind

-- What a line of the listing says about a token.
structure Row where
  line : Nat
  kind : Kind
  lexeme : String
  literal : Option Literal

def Token.row (t : Token) : Row := ⟨t.line, t.kind, t.lexeme, t.data.payload?⟩

-- What stands behind the lexeme in a line of the listing.
def TokenData.ending (data : TokenData) : List Char :=
  match data.payload? with
  | some value => ' ' :: value.text.toList
  | none => []

theorem Token.listing_append (t : Token) (rest : List Char) :
    t.listing.toList ++ rest = (toString t.line).toList ++ ' ' ::
      (t.kind.name.toList ++ ' ' :: '\'' ::
        (t.lexeme.toList ++ '\'' :: (t.data.ending ++ rest))) := by
  unfold listing TokenData.ending
  cases t.data.payload? <;> simp

-- A token with a text that has its meaning. The end of input has no text.
def Token.IsSpelled (t : Token) : Prop :=
  Spells t.lexeme.toList (.token t.data) ∨ t.data = .eof ∧ t.lexeme = ""

namespace Lexical

theorem isSpelled_of_mem_scan {log : Log} {source : String} {t : Token}
    (h : t ∈ (scan log source).1) : t.IsSpelled := by
  obtain ⟨l, hl⟩ | heof := lexeme_of_mem_scan h
  · obtain ⟨hdata, hlexeme⟩ := Prod.mk.inj hl
    rw [Token.IsSpelled, hdata, hlexeme, String.toList_ofList]
    exact .inl l.spelled
  · exact .inr (Prod.mk.inj heof)

section Lexemes

variable {w v rest behind : List Char} {data other : TokenData}

-- Only a string can have the quotes in it that stand around a lexeme in the listing.
theorem quote_notMem_of_spells (h : Spells w (.token data)) (hkind : data.kind ≠ .str) :
    '\'' ∉ w := by
  have hdigits {digits : List Char} (h : ∀ d ∈ digits, d.isDigit = true) : '\'' ∉ digits :=
    fun hmem => absurd (h _ hmem) (by decide)
  cases h with
  | symbol s => cases s <;> decide
  | string => exact absurd rfl hkind
  | whole h => exact hdigits h
  | @fraction digit first digits places h hplaces =>
    rw [← List.cons_append]
    have hpoint : '\'' ≠ '.' := by decide
    exact List.not_mem_append (hdigits h)
      (List.not_mem_cons_of_ne_of_not_mem hpoint (hdigits hplaces))
  | keyword k => cases k <;> decide
  | identifier hletter hmore =>
    rw [List.mem_cons, not_or]
    refine ⟨?_, fun hmem => absurd (hmore _ hmem) (by decide)⟩
    rintro rfl
    exact absurd hletter (by decide)

-- The kind tells how to find the end of a lexeme: a string ends with its second quote.
theorem lexeme_of_append (hw : Spells w (.token data)) (hv : Spells v (.token other))
    (hkind : data.kind = other.kind) (h : w ++ '\'' :: rest = v ++ '\'' :: behind) : w = v := by
  by_cases hstring : data.kind = .str
  · cases hw with
    | @string inner hinner =>
      cases hv with
      | @string inner' hinner' =>
        simp only [List.cons_append, List.append_assoc] at h
        rw [(eq_of_append_stop hinner hinner' (List.cons.inj h).2).1]
      | _ => cases hkind
    | _ => cases hstring
  · exact (eq_of_append_stop (quote_notMem_of_spells hw hstring)
      (quote_notMem_of_spells hv (hkind ▸ hstring)) h).1

-- The text of a token has only one meaning.
theorem data_of_spells (hw : Spells w (.token data)) (hv : Spells w (.token other)) :
    data = other := by
  obtain ⟨c, inner, rfl⟩ := List.exists_cons_of_ne_nil hw.ne_nil
  have hfront := (front_of_spells hw).symm.trans (front_of_spells hv)
  exact Element.token.inj (Prod.mk.inj hfront).1

end Lexemes

end Lexical

section Lines

theorem isEof_eq_of_kind {t u : Token} (h : t.kind = u.kind) : t.isEof = u.isEof := by
  have hkind (data : TokenData) : data.isEof = decide (data.kind = .eof) := by cases data <;> rfl
  have hsame : t.data.kind = u.data.kind := h
  rw [Token.isEof, hkind, hsame, ← hkind, Token.isEof]

variable {t u : Token} {rest behind : List Char}

theorem Token.IsSpelled.inj (ht : t.IsSpelled) (hu : u.IsSpelled) (hkind : t.kind = u.kind)
    (h : t.lexeme.toList ++ '\'' :: rest = u.lexeme.toList ++ '\'' :: behind) :
    t.lexeme = u.lexeme ∧ t.data = u.data := by
  have heof : t.isEof = u.isEof := isEof_eq_of_kind hkind
  rcases ht with ht | ⟨ht, hlexeme⟩ <;> rcases hu with hu | ⟨hu, hlexeme'⟩
  · have hsame := lexeme_of_append ht hu hkind h
    rw [hsame] at ht
    exact ⟨String.toList_inj.mp hsame, data_of_spells ht hu⟩
  · cases ht.not_eof.symm.trans (heof.trans (congrArg TokenData.isEof hu))
  · cases hu.not_eof.symm.trans (heof.symm.trans (congrArg TokenData.isEof ht))
  · exact ⟨hlexeme.trans hlexeme'.symm, ht.trans hu.symm⟩

-- A line of the listing is told apart from all that follows it.
theorem row_of_listing (ht : t.IsSpelled) (hu : u.IsSpelled)
    (h : t.listing.toList ++ '\n' :: rest = u.listing.toList ++ '\n' :: behind) :
    t.row = u.row ∧ rest = behind := by
  have hspace (t : Token) : ' ' ∉ (toString t.line).toList :=
    fun hmem => absurd (isDigit_of_mem_toString hmem) (by decide)
  rw [Token.listing_append, Token.listing_append] at h
  obtain ⟨hline, h⟩ := eq_of_append_stop (hspace t) (hspace u) h
  obtain ⟨hname, h⟩ := eq_of_append_stop t.kind.space_notMem_name u.kind.space_notMem_name h
  have hkind := Kind.eq_of_name (String.toList_inj.mp hname)
  have hquoted := (List.cons.inj h).2
  obtain ⟨hlexeme, hdata⟩ := ht.inj hu hkind hquoted
  rw [hlexeme, hdata] at hquoted
  have hending := (List.cons.inj (List.append_cancel_left hquoted)).2
  refine ⟨?_, (List.cons.inj (List.append_cancel_left hending)).2⟩
  rw [Token.row, Token.row, eq_of_toList_toString hline, hkind, hlexeme, hdata]

end Lines

-- Tokens up to the end of input, which is the last one and nowhere else.
inductive Closed : List Token → Prop where
  | eof {t : Token} : t.isEof = true → Closed [t]
  | cons {t : Token} {tokens : List Token} : t.isEof = false → Closed tokens → Closed (t :: tokens)

theorem closed_append {front : List Token} {eof : Token} (heof : eof.isEof = true)
    (hfront : ∀ t ∈ front, t.isEof = false) : Closed (front ++ [eof]) := by
  induction front with
  | nil => exact .eof heof
  | cons t front ih =>
    exact .cons (hfront t List.mem_cons_self)
      (ih fun u hu => hfront u (List.mem_cons_of_mem _ hu))

theorem closed_scan (log : Log) (source : String) : Closed (scan log source).1 := by
  obtain ⟨pieces, hpieces⟩ := exists_division source.toList
  rw [scan, Stream.collect_eq, items_eq_of_division hpieces, List.filterMap_append]
  refine closed_append rfl fun t ht => ?_
  obtain ⟨item, hitem, htoken⟩ := List.mem_filterMap.mp ht
  cases item <;> cases htoken
  exact hpieces.not_eof_of_mem_yields hitem

-- The lines for some tokens.
def listingLines (tokens : List Token) : List Char :=
  tokens.flatMap fun t => t.listing.toList ++ ['\n']

theorem toList_dump (source : String) :
    (dump source).toList = listingLines (scan .empty source).1 := by
  simp [dump, ← Token.listing_eq, listingLines, String.toList_join, List.flatMap_map]

theorem listingLines_append (t : Token) (tokens : List Token) (rest : List Char) :
    listingLines (t :: tokens) ++ rest =
      t.listing.toList ++ '\n' :: (listingLines tokens ++ rest) := by
  simp [listingLines]

theorem row_of_listingLines {t u : Token} {tokens others : List Token} {rest behind : List Char}
    (ht : t.IsSpelled) (hu : u.IsSpelled)
    (h : listingLines (t :: tokens) ++ rest = listingLines (u :: others) ++ behind) :
    t.row = u.row ∧ t.isEof = u.isEof ∧
      listingLines tokens ++ rest = listingLines others ++ behind := by
  rw [listingLines_append, listingLines_append] at h
  obtain ⟨hrow, hmore⟩ := row_of_listing ht hu h
  exact ⟨hrow, isEof_eq_of_kind (congrArg Row.kind hrow), hmore⟩

-- From the lines alone it shows where they stop, whatever follows the one for the end of input.
theorem rows_of_listingLines {tokens others : List Token} {rest behind : List Char}
    (htokens : Closed tokens) (hothers : Closed others)
    (hspelled : ∀ t ∈ tokens, t.IsSpelled) (hspelled' : ∀ u ∈ others, u.IsSpelled)
    (h : listingLines tokens ++ rest = listingLines others ++ behind) :
    tokens.map Token.row = others.map Token.row ∧ rest = behind := by
  induction htokens generalizing others with
  | @eof t ht =>
    have ht' := hspelled t List.mem_cons_self
    cases hothers with
    | @eof u hu =>
      obtain ⟨hrow, -, hrest⟩ := row_of_listingLines ht' (hspelled' u List.mem_cons_self) h
      exact ⟨congrArg (fun row => [row]) hrow, hrest⟩
    | @cons u others hu _ =>
      obtain ⟨-, heof, -⟩ := row_of_listingLines ht' (hspelled' u List.mem_cons_self) h
      cases ht.symm.trans (heof.trans hu)
  | @cons t tokens ht _ ih =>
    have ht' := hspelled t List.mem_cons_self
    have htokens' : ∀ t ∈ tokens, t.IsSpelled :=
      fun t hmem => hspelled t (List.mem_cons_of_mem _ hmem)
    cases hothers with
    | @eof u hu =>
      obtain ⟨-, heof, -⟩ := row_of_listingLines ht' (hspelled' u List.mem_cons_self) h
      cases ht.symm.trans (heof.trans hu)
    | @cons u others hu hothers =>
      obtain ⟨hrow, -, hmore⟩ := row_of_listingLines ht' (hspelled' u List.mem_cons_self) h
      obtain ⟨hrows, hrest⟩ := ih hothers htokens'
        (fun u hmem => hspelled' u (List.mem_cons_of_mem _ hmem)) hmore
      rw [List.map_cons, List.map_cons, hrow, hrows]
      exact ⟨rfl, hrest⟩

theorem eq_of_encode {s t : String} (h : encode s = encode t) : s = t := by
  have hdata : s.toUTF8.data = t.toUTF8.data := Array.toList_inj.mp h
  exact String.toByteArray_inj.mp (ByteArray.ext hdata)

-- The listing of the tokens of a source stands for no other tokens, however the source goes on in
-- strings that look like lines of it, and whatever tree is written behind it.
theorem rows_eq_of_run_eq {a b : String}
    (h : (run true a (.empty none)).1.held = (run true b (.empty none)).1.held) :
    (scan .empty a).1.map Token.row = (scan .empty b).1.map Token.row := by
  obtain ⟨tree, _, _, hreport⟩ := exists_verdict a
  obtain ⟨tree', _, _, hreport'⟩ := exists_verdict b
  have hbytes : encode (dump a ++ tree) = encode (dump b ++ tree') := by
    have ha := (run_unlimited true a).1
    have hb := (run_unlimited true b).1
    rw [(hreport true).1] at ha
    rw [(hreport' true).1] at hb
    rw [h] at ha
    exact ha.symm.trans hb
  have htext := congrArg String.toList (eq_of_encode hbytes)
  rw [String.toList_append, String.toList_append, toList_dump, toList_dump] at htext
  exact (rows_of_listingLines (closed_scan .empty a) (closed_scan .empty b)
    (fun t ht => isSpelled_of_mem_scan ht) (fun u hu => isSpelled_of_mem_scan hu) htext).1

-- Within the first string there is a line for a token, and the layout around the strings differs.
theorem rows_eq_of_run_eq_layout :
    let a := "\"\n2 Plus '+'\" + 1.50 // \"\n"
    let b := "\"\n2 Plus '+'\"+\t1.50\n"
    (run true a (.empty none)).1.held = (run true b (.empty none)).1.held ∧
      (scan .empty a).1.map Token.row = (scan .empty b).1.map Token.row := by
  intro a b
  have hheld : (run true a (.empty none)).1.held = (run true b (.empty none)).1.held := by
    decide +kernel
  exact ⟨hheld, rows_eq_of_run_eq hheld⟩

end Lox
