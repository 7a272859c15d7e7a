import Lox.Proofs.Lexical.Items

namespace Lox.Lexical

open Lox.Text

-- An item of a source: where it starts, where it stops, and the stream that is left behind it. The
-- end of input lies behind everything and leaves nothing.
inductive Found (source : String) : List Char → Item → List Char → Stream → Prop where
  | piece {front text rest : List Char} {element : Element} {item : Item} :
      source.toList = front ++ (text ++ rest) → Cut (text ++ rest) text element →
      Piece.item? source front ⟨text, element⟩ = some item →
      Found source front item (front ++ text) (.reading (.behind source (front ++ text)))
  | eof : Found source source.toList (.token (.eofAt (.behind source source.toList)))
      source.toList .finished

-- A stream that has read a front of a source, and maybe more.
inductive Placed (source : String) (front : List Char) : Stream → Prop where
  | reading {place rest : List Char} : front <+: place → source.toList = place ++ rest →
      Placed source front (.reading (.behind source place))
  | finished : Placed source front .finished

variable {source : String} {front start stop : List Char} {item : Item} {s after : Stream}

theorem placed_ofSource (source : String) : Placed source [] (.ofSource source) := by
  rw [Stream.ofSource, ← Position.behind_nil]
  exact .reading List.nil_prefix (List.nil_append source.toList).symm

theorem Placed.mono {longer : List Char} (h : Placed source longer s) (hfront : front <+: longer) :
    Placed source front s := by
  cases h with
  | reading hplace hsource => exact .reading (hfront.trans hplace) hsource
  | finished => exact .finished

theorem Found.start_prefix (h : Found source start item stop after) : start <+: stop := by
  cases h with
  | piece => exact List.prefix_append _ _
  | eof => exact List.prefix_rfl

-- An item with something behind it takes at least one character.
theorem Found.length_lt {p : Position} (h : Found source start item stop (.reading p)) :
    start.length < stop.length := by
  cases h with
  | piece _ hcut =>
    obtain ⟨c, inner, more, rfl, -⟩ := hcut.exists_eq
    simp

theorem Found.stop_prefix (h : Found source start item stop after) : stop <+: source.toList := by
  cases h with
  | piece hsource =>
    rw [hsource, ← List.append_assoc]
    exact List.prefix_append _ _
  | eof => exact List.prefix_rfl

section Tokens

variable {t : Token}

theorem Found.span_eq (h : Found source start (.token t) stop after) :
    t.span = ⟨.behind source start, .behind source stop⟩ := by
  generalize htoken : Item.token t = item at h
  cases h with
  | @piece _ text rest element _ hsource hcut hitem =>
    subst htoken
    cases element <;> cases hitem
    rfl
  | eof =>
    cases htoken
    rfl

-- Only the end of input lies at the end of a source.
theorem Found.of_isEof (h : Found source start (.token t) stop after) (ht : t.isEof = true) :
    start = source.toList ∧ stop = source.toList := by
  generalize htoken : Item.token t = item at h
  cases h with
  | @piece _ text rest element _ hsource hcut hitem =>
    subst htoken
    cases element <;> cases hitem
    cases ht.symm.trans hcut.spells.not_eof
  | eof => exact ⟨rfl, rfl⟩

end Tokens

theorem Found.placed (h : Found source start item stop after) : Placed source stop after := by
  cases h with
  | piece hsource =>
    rw [← List.append_assoc] at hsource
    exact .reading List.prefix_rfl hsource
  | eof => exact .finished

-- What is cut off in front yields its item if it has one, and reading goes on behind it.
theorem next?_of_cut {text rest : List Char} {element : Element}
    (h : source.toList = front ++ (text ++ rest)) (hcut : Cut (text ++ rest) text element) :
    (Stream.reading (.behind source front)).next? =
      (Piece.item? source front ⟨text, element⟩).elim
        (Stream.reading (.behind source (front ++ text))).next?
        fun item => some (item, .reading (.behind source (front ++ text))) := by
  obtain ⟨c, inner, more, rfl, htext⟩ := hcut.exists_eq
  rw [List.cons_append] at hcut
  have hplace : (Position.behind source front).rest = c :: (inner ++ rest) :=
    Position.rest_behind h
  have hstop := Position.skip_behind h
  have hnext : (Stream.reading (.behind source front)).next? = _ := Stream.next?_front hplace
  rw [front_of_cut hcut, ← List.length_cons, hstop] at hnext
  rwa [← item?_behind]

-- Wherever a stream is placed, it finds an item there or further behind.
theorem exists_found {rest : List Char} (h : source.toList = front ++ rest) :
    ∃ start item stop after, (Stream.reading (.behind source front)).next? = some (item, after) ∧
      front <+: start ∧ Found source start item stop after := by
  obtain ⟨pieces, hpieces⟩ := exists_division rest
  induction hpieces generalizing front with
  | nil =>
    have hend := Stream.next?_end (Position.rest_behind h)
    rw [List.append_nil] at h
    subst h
    exact ⟨_, _, _, _, hend, List.prefix_rfl, .eof⟩
  | @cons text rest element pieces hcut hrest ih =>
    have hnext := next?_of_cut h hcut
    cases hitem : Piece.item? source front ⟨text, element⟩ with
    | some item =>
      rw [hitem, Option.elim_some] at hnext
      exact ⟨_, _, _, _, hnext, List.prefix_rfl, .piece h hcut hitem⟩
    | none =>
      rw [hitem, Option.elim_none] at hnext
      have hbehind : source.toList = (front ++ text) ++ rest := by rw [h, List.append_assoc]
      obtain ⟨start, item, stop, after, hitem, hstart, hfound⟩ := ih hbehind
      exact ⟨start, item, stop, after, hnext.trans hitem,
        (List.prefix_append _ _).trans hstart, hfound⟩

-- What a stream yields next lies behind all that it has read, and it goes on behind that.
theorem Placed.found (h : Placed source front s) (hnext : s.next? = some (item, after)) :
    ∃ start stop, front <+: start ∧ Found source start item stop after := by
  cases h with
  | reading hplace hsource =>
    obtain ⟨start, item, stop, after, hfound, hstart, h⟩ := exists_found hsource
    cases hnext.symm.trans hfound
    exact ⟨start, stop, hplace.trans hstart, h⟩
  | finished =>
    rw [Stream.next?] at hnext
    cases hnext

theorem Placed.skip (h : Placed source front s) (count : Nat) :
    Placed source front (s.skip count) := by
  fun_induction Stream.skip count s with
  | case1 s => exact h
  | case2 => exact .finished
  | case3 count s item rest hnext ih =>
    obtain ⟨start, stop, hstart, hfound⟩ := h.found hnext
    exact ih (hfound.placed.mono (hstart.trans hfound.start_prefix))

theorem found_of_nth? {count : Nat} (h : (Stream.ofSource source).nth? count = some (item, after)) :
    ∃ start stop, Found source start item stop after := by
  obtain ⟨start, stop, -, hfound⟩ := ((placed_ofSource source).skip count).found h
  exact ⟨start, stop, hfound⟩

theorem Placed.found_of_mem (h : Placed source front s) (hmem : item ∈ s.items) :
    ∃ start stop after, front <+: start ∧ Found source start item stop after := by
  fun_induction Stream.items s with
  | case1 => cases hmem
  | case2 s first rest hnext ih =>
    obtain ⟨start, stop, hstart, hfound⟩ := h.found hnext
    rcases List.mem_cons.mp hmem with rfl | hmem
    · exact ⟨start, stop, rest, hstart, hfound⟩
    · exact ih (hfound.placed.mono (hstart.trans hfound.start_prefix)) hmem

-- Two items of a source, of which the second starts where the first stops or further behind. The
-- first one is not the end of input, so that it takes some of the source.
def Before (source : String) (first second : Item) : Prop :=
  ∃ start stop start' stop' after',
    Found source start first stop (.reading (.behind source stop)) ∧
      Found source start' second stop' after' ∧ stop <+: start'

theorem Placed.pairwise_items (h : Placed source front s) : s.items.Pairwise (Before source) := by
  fun_induction Stream.items s with
  | case1 => exact .nil
  | case2 s first rest hnext ih =>
    obtain ⟨start, stop, hstart, hfound⟩ := h.found hnext
    have hplaced := hfound.placed
    refine List.pairwise_cons.mpr ⟨?_, ih (hplaced.mono (hstart.trans hfound.start_prefix))⟩
    intro item hmem
    obtain ⟨start', stop', after', hstart', hfound'⟩ := hplaced.found_of_mem hmem
    cases hfound with
    | piece hsource hcut hitem =>
      exact ⟨_, _, _, _, _, .piece hsource hcut hitem, hfound', hstart'⟩
    | eof =>
      have hnone : Stream.finished.items = [] := Stream.items_of_next?_none Stream.next?_finished
      rw [hnone] at hmem
      cases hmem

end Lox.Lexical
