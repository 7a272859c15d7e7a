import Lox.Proofs.Guarded.Agreement
import Lox.Proofs.Lexical.Layout

namespace Lox.Guarded

open Lox.Number Lox.Text Lox.Lexical

section Turns

variable {source : String} {front text : List Char} {c : Char}

theorem turn_end (h : source.toList = front ++ []) :
    turn (.behind source front) = .ok (some (.token (.eofAt (.behind source front))), .finished) := by
  have hrest := Position.rest_behind h
  simp only [turn, Position.next, peek?_behind h, List.head?_nil, Position.step, hrest]

theorem turn_behind (h : source.toList = front ++ c :: text) :
    let stop := (Position.behind source front).skip ((Element.front c text).2 + 1)
    turn (.behind source front) =
      .ok ((Element.front c text).1.item? (.behind source front) stop, .reading stop) := by
  simp only [turn, Position.next, peek?_behind h, List.head?_cons, Position.step_behind h,
    scanToken_behind h, Except.map]

end Turns

-- The streams that reading a source comes to, after all turns of a call or in between.
inductive Reached (source : String) : Stream → Prop where
  | start : Reached source (.ofSource source)
  | turn {p : Position} {item : Option Item} {s : Stream} :
      Reached source (.reading p) → turn p = .ok (item, s) → Reached source s

variable {source : String} {p : Position} {s t : Stream}

-- A turn leads from behind a front of the source to behind a longer one.
theorem Reached.place (h : Reached source s) :
    s = .finished ∨ ∃ front rest, source.toList = front ++ rest ∧
      s = .reading (.behind source front) := by
  induction h with
  | start => exact .inr ⟨[], source.toList, rfl, congrArg Stream.reading (Position.behind_nil source).symm⟩
  | @turn p item s _ hturn ih =>
    obtain hfinished | ⟨front, rest, hsource, hplace⟩ := ih
    · cases hfinished
    · cases hplace
      cases rest with
      | nil =>
        rw [turn_end hsource] at hturn
        cases hturn
        exact .inl rfl
      | cons c text =>
        rw [turn_behind hsource, Position.skip_eq_behind hsource] at hturn
        cases hturn
        refine .inr ⟨_, (c :: text).drop ((Element.front c text).2 + 1), ?_, rfl⟩
        rw [List.append_assoc, List.take_append_drop, hsource]

theorem Reached.exists_front (h : Reached source (.reading p)) :
    ∃ front rest, source.toList = front ++ rest ∧ p = .behind source front := by
  obtain hfinished | ⟨front, rest, hsource, hplace⟩ := h.place
  · cases hfinished
  · exact ⟨front, rest, hsource, Stream.reading.inj hplace⟩

-- No turn is given up. One that is not at the end takes a character, and maybe more.
theorem Reached.turn_returns (h : Reached source (.reading p)) :
    (p.rest = [] ∧ Guarded.turn p = .ok (some (.token (.eofAt p)), .finished)) ∨
      ∃ c more item q, p.rest = c :: (more ++ q.rest) ∧
        Guarded.turn p = .ok (item, .reading q) := by
  obtain ⟨front, rest, hsource, rfl⟩ := h.exists_front
  have hrest := Position.rest_behind hsource
  cases rest with
  | nil => exact .inl ⟨hrest, turn_end hsource⟩
  | cons c text =>
    refine .inr ⟨c, text.take (Element.front c text).2, _, _, ?_, turn_behind hsource⟩
    rw [Position.rest_skip, hrest, List.drop_succ_cons, List.take_append_drop]

-- A turn goes the way of the reader: it is done with an item, or reads on without one.
theorem Reached.next?_of_turn {item : Option Item} (h : Reached source (.reading p))
    (hturn : Guarded.turn p = .ok (item, s)) :
    (Stream.reading p).next? = item.elim s.next? fun item => some (item, s) := by
  obtain ⟨front, rest, hsource, rfl⟩ := h.exists_front
  have hrest := Position.rest_behind hsource
  cases rest with
  | nil =>
    rw [turn_end hsource] at hturn
    cases hturn
    exact Stream.next?_end hrest
  | cons c text =>
    rw [turn_behind hsource] at hturn
    cases hturn
    exact Stream.next?_front hrest

theorem Reached.next_eq (h : Reached source s) : next s = .ok s.next? := by
  fun_induction next s with
  | case1 => rw [Stream.next?]
  | case2 p reason hturn =>
    obtain ⟨-, hreturns⟩ | ⟨_, _, _, _, -, hreturns⟩ := h.turn_returns
    · cases hturn.symm.trans hreturns
    · cases hturn.symm.trans hreturns
  | case3 p item rest hturn => rw [h.next?_of_turn hturn, Option.elim_some]
  | case4 p rest hturn ih => rw [ih (.turn h hturn), h.next?_of_turn hturn, Option.elim_none]

theorem Reached.next_of_next? {found : Option (Item × Stream)} (h : Reached source s)
    (hfound : s.next? = found) : next s = .ok found := by
  rw [h.next_eq, hfound]

theorem Reached.next_reached {item : Item} (h : Reached source s)
    (hnext : next s = .ok (some (item, t))) : Reached source t := by
  fun_induction next s with
  | case1 => cases hnext
  | case2 p reason hturn => cases hnext
  | case3 p found rest hturn =>
    cases hnext
    exact .turn h hturn
  | case4 p rest hturn ih => exact ih (.turn h hturn) hnext

theorem Reached.collect_eq (h : Reached source s) (log : Log) :
    collect s log = .ok (s.collect log) := by
  fun_induction Stream.collect s log with
  | case1 s log hnone =>
    have hnext := h.next_of_next? hnone
    rw [collect]
    split <;> simp_all
  | case2 s log t rest htoken tokens log' hcollect ih =>
    have hnext := h.next_of_next? htoken
    have hrest := ih (h.next_reached hnext)
    rw [hcollect] at hrest
    rw [collect]
    split <;> simp_all [Except.map]
  | case3 s log f rest hfault ih =>
    have hnext := h.next_of_next? hfault
    have hrest := ih (h.next_reached hnext)
    rw [collect]
    split <;> simp_all

theorem scan_eq (log : Log) (source : String) : scan log source = .ok (Lox.scan log source) :=
  Reached.start.collect_eq log

theorem eq_quoted_of_spells {piece : List Char} {text : String}
    (h : Spells piece (.token (.str text))) : piece = '"' :: (text.toList ++ ['"']) := by
  cases h with
  | string hinner => rw [String.toList_ofList]

theorem writes_of_spells {piece : List Char} {x : Binary64}
    (h : Spells piece (.token (.number x))) : ∃ d, Writes piece d ∧ x = d.toBinary64 := by
  cases h with
  | whole hdigits => exact ⟨_, .whole (by simp) hdigits, rfl⟩
  | fraction hdigits hplaces => exact ⟨_, .fraction (by simp) hdigits (by simp) hplaces, rfl⟩

-- The lexeme of a string is long enough for two quotes, and the text is what they leave of it.
theorem str_of_mem_scan {log : Log} {t : Token} {text : String} (h : t ∈ (Lox.scan log source).1)
    (ht : t.data = .str text) :
    2 ≤ t.lexeme.utf8ByteSize ∧
      slice t.lexeme.toList 1 (t.lexeme.utf8ByteSize - 1) = .ok text.toList := by
  rw [← byteLength_toList, eq_quoted_of_spells (spells_of_mem_scan h ht rfl)]
  refine ⟨?_, slice_quoted text.toList⟩
  have hquote : '"'.utf8Size = 1 := rfl
  simp only [byteLength_cons, byteLength_append, byteLength_nil]
  omega

theorem number_of_mem_scan {log : Log} {t : Token} {x : Binary64}
    (h : t ∈ (Lox.scan log source).1) (ht : t.data = .number x) :
    ∃ d, Writes t.lexeme.toList d ∧ x = d.toBinary64 :=
  writes_of_spells (spells_of_mem_scan h ht rfl)

-- No check ever fails, whatever the source. Every turn takes a character or ends the reading, so
-- that every call returns and so does a scan, both as they do without the checks. The strings and
-- the numbers among the tokens are what the last two checks ask for.
theorem reading_returns (source : String) :
    (∀ p, Reached source (.reading p) →
      (p.rest = [] ∧ turn p = .ok (some (.token (.eofAt p)), .finished)) ∨
        ∃ c more item q, p.rest = c :: (more ++ q.rest) ∧ turn p = .ok (item, .reading q)) ∧
    (∀ s, Reached source s →
      next s = .ok s.next? ∧ ∀ item t, s.next? = some (item, t) → Reached source t) ∧
    (∀ log, scan log source = .ok (Lox.scan log source)) ∧
    (∀ log, ∀ t ∈ (Lox.scan log source).1,
      (∀ text, t.data = .str text → 2 ≤ t.lexeme.utf8ByteSize ∧
        slice t.lexeme.toList 1 (t.lexeme.utf8ByteSize - 1) = .ok text.toList) ∧
      ∀ x, t.data = .number x → ∃ d, Writes t.lexeme.toList d ∧ x = d.toBinary64) := by
  refine ⟨fun p hp => hp.turn_returns, ?_, fun log => scan_eq log source, ?_⟩
  · intro s hs
    refine ⟨hs.next_eq, ?_⟩
    intro item t hnext
    exact hs.next_reached (hs.next_of_next? hnext)
  · intro log t ht
    exact ⟨fun text hdata => str_of_mem_scan ht hdata, fun x hdata => number_of_mem_scan ht hdata⟩

end Lox.Guarded
