import Lox.Proofs.Guarded.Slice
import Lox.Proofs.Text.Moves

namespace Lox.Guarded

open Lox.Text

-- The characters that are read one by one on the way from one place to another.
inductive Reads : Position → List Char → Position → Prop where
  | stay (p : Position) : Reads p [] p
  | next {p q r : Position} {c : Char} {text : List Char} :
      p.next = (some c, q) → Reads q text r → Reads p (c :: text) r

section Reads

variable {a b c p q : Position} {first second text : List Char} {d : Char}

theorem Reads.trans (h : Reads a first b) (h' : Reads b second c) :
    Reads a (first ++ second) c := by
  induction h with
  | stay p => exact h'
  | next hnext _ ih => exact .next hnext (ih h')

-- A character is taken from the rest, and its bytes and its newline are counted.
theorem counts_of_next (h : p.next = (some d, q)) :
    q.source = p.source ∧ p.rest = d :: q.rest ∧ q.offset = p.offset + d.utf8Size ∧
      q.line = p.line + [d].count '\n' := by
  obtain ⟨hpeek, rfl⟩ := Prod.mk.inj h
  obtain ⟨rest, hrest⟩ := List.head?_eq_some_iff.mp hpeek
  refine ⟨Position.source_step p, ?_, ?_, ?_⟩
  · rw [Position.rest_step, hrest, List.tail_cons]
  · simp only [Position.step, hrest]
  · simp only [Position.step, hrest, List.count_singleton, beq_iff_eq]
    split <;> rfl

theorem Reads.counts (h : Reads a text b) :
    b.source = a.source ∧ a.rest = text ++ b.rest ∧ b.offset = a.offset + byteLength text ∧
      b.line = a.line + text.count '\n' := by
  induction h with
  | stay p => exact ⟨rfl, rfl, rfl, rfl⟩
  | @next p q r d text hnext _ ih =>
    obtain ⟨hsource, hrest, hoffset, hline⟩ := counts_of_next hnext
    obtain ⟨hsource', hrest', hoffset', hline'⟩ := ih
    refine ⟨hsource'.trans hsource, by rw [hrest, hrest', List.cons_append], ?_, ?_⟩
    · rw [hoffset', hoffset, byteLength_cons, Nat.add_assoc]
    · have htext : d :: text = [d] ++ text := rfl
      rw [hline', hline, htext, List.count_append, Nat.add_assoc]

-- What is read makes up the stretch between the two places.
theorem Reads.lexeme_eq (h : Reads a text b) : (Span.mk a b).lexeme = String.ofList text := by
  obtain ⟨-, hrest, hoffset, -⟩ := h.counts
  have hsize : b.offset - a.offset = byteLength text := by omega
  rw [Span.lexeme, hsize, hrest, takeBytes_append]

theorem Reads.slice?_eq (h : Reads a text b) : a.slice? b = some (String.ofList text) := by
  obtain ⟨hsource, -, hoffset, -⟩ := h.counts
  have hordered : a.source = b.source ∧ a.offset ≤ b.offset := ⟨hsource.symm, by omega⟩
  rw [Position.slice?, if_pos hordered]
  exact congrArg some h.lexeme_eq

theorem reads_behind {source : String} {front rest : List Char}
    (h : source.toList = front ++ (text ++ rest)) :
    Reads (.behind source front) text (.behind source (front ++ text)) := by
  induction text generalizing front with
  | nil =>
    rw [List.append_nil]
    exact .stay _
  | cons c text ih =>
    have hnext : (Position.behind source front).next =
        (some c, .behind source (front ++ [c])) := by
      rw [Position.next, Position.peek?, Position.rest_behind h, Position.step_behind h]
      rfl
    have hbehind : source.toList = (front ++ [c]) ++ (text ++ rest) := by
      rw [h, List.cons_append, List.append_cons]
    have hreads := ih hbehind
    rw [List.append_assoc, List.singleton_append] at hreads
    exact .next hnext hreads

end Reads

section Places

variable {a b : Position} {text : List Char}

theorem prefix_of_byteLength_le {front other whole : List Char} (hfront : front <+: whole)
    (hother : other <+: whole) (h : byteLength front ≤ byteLength other) : front <+: other := by
  obtain hle | ⟨more, rfl⟩ := List.prefix_or_prefix_of_prefix hfront hother
  · exact hle
  · cases more with
    | nil => simp
    | cons c more =>
      have hpos := c.utf8Size_pos
      rw [byteLength_append, byteLength_cons] at h
      omega

-- Of two places in a text the one with the smaller offset leads to the other one.
theorem exists_reads (ha : LiesBehind a) (hb : LiesBehind b) (hsource : a.source = b.source)
    (hoffset : a.offset ≤ b.offset) : ∃ text, Reads a text b := by
  obtain ⟨source, front, rest, hfront, rfl⟩ := ha
  obtain ⟨source', other, rest', hother, rfl⟩ := hb
  obtain rfl : source = source' := hsource
  have hprefix : front <+: other := prefix_of_byteLength_le ⟨rest, hfront.symm⟩
    ⟨rest', hother.symm⟩ hoffset
  obtain ⟨text, rfl⟩ := hprefix
  rw [List.append_assoc] at hother
  exact ⟨text, reads_behind hother⟩

-- The offsets of the two places cut exactly that out of the whole text which is read between them.
theorem Reads.lexeme_eq_ok (h : Reads a text b) (ha : LiesBehind a) :
    lexeme a b = .ok (String.ofList text) := by
  obtain ⟨front, htracks⟩ := ha.exists_tracks
  obtain ⟨hsource, hrest, hoffset, -⟩ := h.counts
  have hwhole : a.source.toList = front.toList ++ (text ++ b.rest) := by
    rw [htracks.source, String.toList_append, String.toList_ofList, hrest]
  have hstart : byteLength front.toList = a.offset := by
    rw [byteLength_toList, htracks.offset]
  have hstop : byteLength (front.toList ++ text) = b.offset := by
    rw [byteLength_append, hstart, hoffset]
  have hslice := slice_eq_ok_iff.mpr ⟨front.toList, b.rest, hwhole, hstart, hstop⟩
  rw [lexeme, if_neg (not_not.mpr hsource.symm), hslice]
  rfl

theorem ordered_of_lexeme {text : String} (h : lexeme a b = .ok text) :
    a.source = b.source ∧ a.offset ≤ b.offset := by
  rw [lexeme] at h
  split at h
  · cases h
  · rename_i hsource
    obtain ⟨inner, hslice, -⟩ := exists_of_map h
    obtain ⟨front, rest, -, hstart, hstop⟩ := slice_eq_ok_iff.mp hslice
    rw [byteLength_append] at hstop
    exact ⟨not_not.mp hsource, by omega⟩

theorem span_eq_ok_iff {s : Span} :
    span a b = .ok s ↔ (a.source = b.source ∧ a.offset ≤ b.offset) ∧ s = ⟨a, b⟩ := by
  rw [span]
  split
  · simp_all
  · split
    · rename_i hsource hoffset
      simp [Nat.not_le.mpr hoffset]
    · rename_i hsource hoffset
      simp [not_not.mp hsource, Nat.not_lt.mp hoffset, eq_comm]

theorem lexeme_eq_ok_iff (ha : LiesBehind a) (hb : LiesBehind b) {text : String} :
    lexeme a b = .ok text ↔ Reads a text.toList b := by
  constructor
  · intro h
    obtain ⟨hsource, hoffset⟩ := ordered_of_lexeme h
    obtain ⟨inner, hreads⟩ := exists_reads ha hb hsource hoffset
    rw [hreads.lexeme_eq_ok ha] at h
    cases h
    rwa [String.toList_ofList]
  · intro h
    rw [h.lexeme_eq_ok ha, String.ofList_toList]

theorem exists_error_iff {α : Type} {result : Except Abort α} :
    (∃ reason, result = .error reason) ↔ ¬ ∃ value, result = .ok value := by
  cases result <;> simp

-- There is nothing to be cut out between places of different texts or from a later place to an
-- earlier one, and there is in all other cases.
theorem lexeme_eq_error_iff (ha : LiesBehind a) (hb : LiesBehind b) :
    (∃ reason, lexeme a b = .error reason) ↔ a.source ≠ b.source ∨ b.offset < a.offset := by
  rw [exists_error_iff, ← not_le, ← not_and_or, not_iff_not]
  constructor
  · rintro ⟨text, h⟩
    exact ordered_of_lexeme h
  · rintro ⟨hsource, hoffset⟩
    obtain ⟨text, hreads⟩ := exists_reads ha hb hsource hoffset
    exact ⟨_, hreads.lexeme_eq_ok ha⟩

theorem span_eq_error_iff :
    (∃ reason, span a b = .error reason) ↔ a.source ≠ b.source ∨ b.offset < a.offset := by
  rw [exists_error_iff, ← not_le, ← not_and_or, not_iff_not]
  simp [span_eq_ok_iff]

-- The unguarded cut is made in the same cases, and gives the same text.
theorem toOption_lexeme (ha : LiesBehind a) (hb : LiesBehind b) :
    (lexeme a b).toOption = a.slice? b := by
  cases hlexeme : lexeme a b with
  | ok text =>
    have hreads := (lexeme_eq_ok_iff ha hb).mp hlexeme
    rw [hreads.slice?_eq, String.ofList_toList]
    rfl
  | error reason =>
    have hapart := (lexeme_eq_error_iff ha hb).mp ⟨reason, hlexeme⟩
    rw [← not_le, ← not_and_or] at hapart
    rw [Position.slice?, if_neg hapart]
    rfl

end Places

-- The stretches that can be built out of places to which some moves lead.
inductive Built : Span → Prop where
  | between {a b : Position} {s : Span} : Reachable a → Reachable b → span a b = .ok s → Built s
  | emptyAt {p : Position} : Reachable p → Built (.emptyAt p)

-- The text of a stretch, and the text under which a token is shown.
def lexemeOf (s : Span) : Except Abort String := lexeme s.start s.stop

def shown (t : Token) : Except Abort String := lexemeOf t.span

theorem Built.exists_reads {s : Span} (h : Built s) :
    LiesBehind s.start ∧ ∃ text, Reads s.start text s.stop := by
  cases h with
  | @between a b s ha hb hspan =>
    obtain ⟨⟨hsource, hoffset⟩, rfl⟩ := span_eq_ok_iff.mp hspan
    exact ⟨ha.liesBehind, Guarded.exists_reads ha.liesBehind hb.liesBehind hsource hoffset⟩
  | @emptyAt p hp => exact ⟨hp.liesBehind, [], .stay p⟩

theorem Built.lexemeOf_eq {s : Span} (h : Built s) :
    lexemeOf s = .ok s.lexeme ∧ s.endLine = s.start.line + s.lexeme.toList.count '\n' := by
  obtain ⟨hstart, text, hreads⟩ := h.exists_reads
  have hlexeme : s.lexeme = String.ofList text := hreads.lexeme_eq
  rw [hlexeme, String.toList_ofList]
  exact ⟨hreads.lexeme_eq_ok hstart, hreads.counts.2.2.2⟩

-- Between two places to which some moves lead a text can be cut out exactly if they lie in the same
-- text and in this order. It is what is read on the way, cut between characters, so that it can be
-- cut at any place in between. No stretch that can be built fails to give its text.
theorem cuts_between_reachable {a b c : Position} (ha : Reachable a) (hb : Reachable b)
    (hc : Reachable c) :
    ((∃ reason, lexeme a b = .error reason) ↔ a.source ≠ b.source ∨ b.offset < a.offset) ∧
    ((∃ reason, span a b = .error reason) ↔ a.source ≠ b.source ∨ b.offset < a.offset) ∧
    (lexeme a b).toOption = a.slice? b ∧ (span a b).toOption = Span.between? a b ∧
    (∀ text, lexeme a b = .ok text ↔ Reads a text.toList b) ∧
    (∀ text, lexeme a b = .ok text → String.Pos.Raw.IsValid a.source ⟨a.offset⟩ ∧
      String.Pos.Raw.IsValid a.source ⟨b.offset⟩ ∧ b.offset = a.offset + text.utf8ByteSize) ∧
    (a.source = b.source → b.source = c.source → a.offset ≤ b.offset → b.offset ≤ c.offset →
      ∃ first second, lexeme a b = .ok first ∧ lexeme b c = .ok second ∧
        lexeme a c = .ok (first ++ second)) ∧
    (∀ s, span a b = .ok s → lexeme a b = .ok s.lexeme ∧
      s.endLine = a.line + s.lexeme.toList.count '\n') ∧
    ∀ s, Built s → lexemeOf s = .ok s.lexeme ∧
      s.endLine = s.start.line + s.lexeme.toList.count '\n' ∧
      ∀ data, shown ⟨data, s⟩ = .ok (Token.lexeme ⟨data, s⟩) ∧
        Token.line ⟨data, s⟩ = s.endLine := by
  have hplaces := And.intro ha.liesBehind hb.liesBehind
  have hiff {p q : Position} (hp : Reachable p) (hq : Reachable q) {text : String} :
      lexeme p q = .ok text ↔ Reads p text.toList q :=
    lexeme_eq_ok_iff hp.liesBehind hq.liesBehind
  refine ⟨lexeme_eq_error_iff hplaces.1 hplaces.2, span_eq_error_iff,
    toOption_lexeme hplaces.1 hplaces.2, toOption_span a b, fun text => hiff ha hb, ?_, ?_, ?_, ?_⟩
  · intro text h
    obtain ⟨front, hfront⟩ := hplaces.1.exists_tracks
    obtain ⟨front', hfront'⟩ := hplaces.2.exists_tracks
    obtain ⟨hsource, -, hoffset, -⟩ := ((hiff ha hb).mp h).counts
    rw [byteLength_toList] at hoffset
    exact ⟨hfront.isValid, hsource ▸ hfront'.isValid, hoffset⟩
  · intro hab hbc hle hle'
    obtain ⟨first, hfirst⟩ := exists_reads hplaces.1 hplaces.2 hab hle
    obtain ⟨second, hsecond⟩ := exists_reads hplaces.2 hc.liesBehind hbc hle'
    refine ⟨String.ofList first, String.ofList second, hfirst.lexeme_eq_ok hplaces.1,
      hsecond.lexeme_eq_ok hplaces.2, ?_⟩
    rw [← String.ofList_append]
    exact (hfirst.trans hsecond).lexeme_eq_ok hplaces.1
  · intro s h
    have hbuilt : Built s := .between ha hb h
    obtain ⟨-, rfl⟩ := span_eq_ok_iff.mp h
    exact hbuilt.lexemeOf_eq
  · intro s h
    obtain ⟨hlexeme, hline⟩ := h.lexemeOf_eq
    exact ⟨hlexeme, hline, fun data => ⟨hlexeme, rfl⟩⟩

-- From one side of a letter of two bytes over a newline, and back.
theorem cuts_between_reachable_accent :
    ∃ a b c, Reachable a ∧ Reachable b ∧ Reachable c ∧ b.offset = 2 ∧ a.slice? b = some "é" ∧
      lexeme a c = .ok ("é" ++ "\n") ∧ ∃ reason, lexeme c a = .error reason := by
  let moves : List Move := [.start 0 "é\n+", .copy 1 0, .next 1, .copy 2 1, .next 2]
  let a := Position.start "é\n+"
  let b := a.step
  let c := b.step
  have ha : Reachable a := ⟨moves, 0, rfl⟩
  have hb : Reachable b := ⟨moves, 1, rfl⟩
  have hc : Reachable c := ⟨moves, 2, rfl⟩
  have hslice : a.slice? b = some "é" := by decide +kernel
  have hslice' : b.slice? c = some "\n" := by decide +kernel
  obtain ⟨-, -, hfirst, -, -, -, hsplit, -⟩ := cuts_between_reachable ha hb hc
  obtain ⟨-, -, hsecond, -⟩ := cuts_between_reachable hb hc ha
  obtain ⟨hback, -⟩ := cuts_between_reachable hc ha hb
  obtain ⟨first, second, hab, hbc, hac⟩ :=
    hsplit rfl rfl (by decide +kernel) (by decide +kernel)
  rw [hab, hslice] at hfirst
  rw [hbc, hslice'] at hsecond
  cases hfirst
  cases hsecond
  exact ⟨a, b, c, ha, hb, hc, by decide +kernel, hslice, hac, hback.mpr (.inr (by decide +kernel))⟩

end Lox.Guarded
