import Lox.Proofs.Descent.Machine
import Mathlib.Data.Nat.Find

namespace Lox.Descent

open Lox.Expr

variable {tokens : List Token} {m n : Machine}

section Size

-- How many routines may call each other before a token is taken.
def Routine.reach : Routine → Nat
  | primary => 0
  | unary => 1
  | chain rank => 5 - rank.toNat
  | expression => 6

def Control.weight : Control → Nat
  | call routine => 3 * routine.reach + 1
  | loop _ _ => 1
  | enter _ routine => 3 * routine.reach + 4
  | back _ => 0

-- A bound on the steps that are left. Every frame is worth two of them, and a token is worth as
-- many as lie between two tokens at most.
def Machine.size (tokens : List Token) (m : Machine) : Nat :=
  24 * (tokens.length - m.index) + m.control.weight + 2 * m.frames.length

def Machine.Finished (m : Machine) : Prop := m.frames = [] ∧ ∃ result, m.control = .back result

theorem Leads.index_eq (h : Leads tokens m n) :
    n.index = m.index ∨ n.index = m.index + 1 ∧ (peek tokens m.index).isEof = false := by
  cases h with
  | unary hpeek hunary => exact .inr ⟨rfl, by rw [hpeek, not_isEof_of_isUnary hunary]⟩
  | leftParen hpeek hparen => exact .inr ⟨rfl, by rw [hpeek, not_isEof_of_symbol hparen]⟩
  | literal hvalue => exact .inr ⟨rfl, not_isEof_of_literal? hvalue⟩
  | @foreign t frames index depth hpeek hparen hvalue =>
    cases heof : (peek tokens index).isEof with
    | true => exact .inl (by simp only [advance, heof, if_true])
    | false => exact .inr ⟨advance_of_not_eof heof, rfl⟩
  | operator hpeek hrank => exact .inr ⟨rfl, by rw [hpeek, not_isEof_of_rank? hrank]⟩
  | close hparen => exact .inr ⟨rfl, not_isEof_of_symbol hparen⟩
  | _ => exact .inl rfl

theorem index_le_iterate (tokens : List Token) (m : Machine) (count : Nat) :
    m.index ≤ ((step tokens)^[count] m).index := by
  induction count generalizing m with
  | zero => exact Nat.le_refl _
  | succ count ih =>
    have hindex := (leads_step tokens m).index_eq
    have hle : m.index ≤ (step tokens m).index := by omega
    exact Nat.le_trans hle (ih _)

-- In front of the end of input there is no going on.
theorem index_eq_of_peek (h : (peek tokens m.index).isEof = true) (count : Nat) :
    ((step tokens)^[count] m).index = m.index := by
  induction count generalizing m with
  | zero => rfl
  | succ count ih =>
    have hindex : (step tokens m).index = m.index := by
      obtain hsame | ⟨-, heof⟩ := (leads_step tokens m).index_eq
      · exact hsame
      · rw [h] at heof
        cases heof
    rw [Function.iterate_succ_apply, ih (by rwa [hindex]), hindex]

theorem reach_operandOf (rank : Rank) : (operandOf rank).reach < (Routine.chain rank).reach := by
  cases rank <;> decide

theorem reach_operandOf_le (rank : Rank) : (operandOf rank).reach ≤ 4 := by
  cases rank <;> decide

-- Every step leaves less to be done.
theorem Leads.size_lt (h : Leads tokens m n) (hm : ¬ m.Finished) : n.size tokens < m.size tokens := by
  have hindex := h.index_eq
  have hlength : n.index ≠ m.index → m.index < tokens.length := by
    intro hne
    obtain heq | ⟨-, heof⟩ := hindex
    · exact absurd heq hne
    · exact lt_length_of_peek heof
  cases h with
  | finished => exact absurd ⟨rfl, _, rfl⟩ hm
  | @chain rank =>
    have hreach := reach_operandOf rank
    simp only [Machine.size, Control.weight, List.length_cons]
    omega
  | @operator t rank =>
    have hreach := reach_operandOf_le rank
    simp only [Machine.size, Control.weight, List.length_cons] at hlength ⊢
    omega
  | foreign =>
    simp only [Machine.size, Control.weight] at hindex ⊢
    omega
  | _ =>
    simp only [Machine.size, Control.weight, Routine.reach, Rank.toNat, List.length_cons] at hlength ⊢
    omega

theorem Machine.Finished.step_eq (h : m.Finished) : step tokens m = m := by
  obtain ⟨control, frames, index, depth⟩ := m
  obtain ⟨rfl, result, rfl⟩ := h
  rfl

theorem Machine.Finished.iterate_eq (h : m.Finished) (count : Nat) : (step tokens)^[count] m = m :=
  Function.iterate_fixed h.step_eq count

-- A run is over after no more steps than the bound says.
theorem exists_finished (tokens : List Token) (m : Machine) :
    ∃ count ≤ m.size tokens, ((step tokens)^[count] m).Finished := by
  by_cases hm : m.Finished
  · exact ⟨0, Nat.zero_le _, hm⟩
  · have hlt := (leads_step tokens m).size_lt hm
    obtain ⟨count, hcount, hfinished⟩ := exists_finished tokens (step tokens m)
    exact ⟨count + 1, by omega, hfinished⟩
termination_by m.size tokens

theorem eq_of_finished {count other : Nat} (h : ((step tokens)^[count] m).Finished)
    (hother : ((step tokens)^[other] m).Finished) :
    (step tokens)^[count] m = (step tokens)^[other] m := by
  obtain ⟨more, rfl⟩ | ⟨more, rfl⟩ := (Nat.le_total count other).imp Nat.exists_eq_add_of_le
    Nat.exists_eq_add_of_le
  · rw [Nat.add_comm, Function.iterate_add_apply, h.iterate_eq]
  · rw [Nat.add_comm, Function.iterate_add_apply, hother.iterate_eq]

end Size

section Calls

-- A result for the caller whose frames are these.
def Machine.ReturnsTo (frames : List Frame) (m : Machine) : Prop :=
  m.frames = frames ∧ ∃ result, m.control = .back result

-- A call is complete when there is a result for its caller for the first time.
structure Completes (tokens : List Token) (m : Machine) (count : Nat)
    (result : Except ParseError Expr) : Prop where
  control : ((step tokens)^[count] m).control = .back result
  frames : ((step tokens)^[count] m).frames = m.frames
  first : ∀ fewer < count, ¬ ((step tokens)^[fewer] m).ReturnsTo m.frames

-- The frames of a caller stay where they are until its call is complete.
theorem Leads.suffix {frames : List Frame} (h : Leads tokens m n) (hm : frames <:+ m.frames)
    (hreturns : ¬ m.ReturnsTo frames) : frames <:+ n.frames := by
  have hpop {result : Except ParseError Expr} {frame : Frame} {more : List Frame} {index depth : Nat}
      (hsuffix : frames <:+ frame :: more)
      (hnot : ¬ (Machine.mk (.back result) (frame :: more) index depth).ReturnsTo frames) :
      frames <:+ more := by
    obtain rfl | hmore := List.suffix_cons_iff.mp hsuffix
    · exact absurd ⟨rfl, result, rfl⟩ hnot
    · exact hmore
  cases h with
  | expression | chain | unary | primary | leftParen | operator | deeper =>
    exact hm.trans (List.suffix_cons _ _)
  | literal | foreign | complete | tooDeep | finished => exact hm
  | leave | fail | same | first | further | negate | close | unclosed | used | trailing =>
    exact hpop hm hreturns

theorem Completes.suffix {count fewer : Nat} {result : Except ParseError Expr}
    (h : Completes tokens m count result) (hle : fewer ≤ count) :
    m.frames <:+ ((step tokens)^[fewer] m).frames := by
  induction fewer with
  | zero => exact List.suffix_rfl
  | succ fewer ih =>
    rw [Function.iterate_succ_apply']
    exact (leads_step tokens _).suffix (ih (Nat.le_of_succ_le hle)) (h.first fewer hle)

theorem exists_returnsTo (tokens : List Token) {frames : List Frame} (m : Machine)
    (hm : frames <:+ m.frames) :
    ∃ count, ((step tokens)^[count] m).ReturnsTo frames := by
  by_cases hreturns : m.ReturnsTo frames
  · exact ⟨0, hreturns⟩
  · have hsuffix := (leads_step tokens m).suffix hm hreturns
    have hlt : (step tokens m).size tokens < m.size tokens := by
      apply (leads_step tokens m).size_lt
      rintro ⟨hnil, hresult⟩
      rw [hnil, List.suffix_nil] at hm
      exact hreturns ⟨hnil.trans hm.symm, hresult⟩
    obtain ⟨count, hcount⟩ := exists_returnsTo tokens (step tokens m) hsuffix
    exact ⟨count + 1, hcount⟩
termination_by m.size tokens

-- Every call is complete some time.
theorem exists_completes (tokens : List Token) (m : Machine) :
    ∃ count result, Completes tokens m count result := by
  classical
  have hexists := exists_returnsTo tokens m List.suffix_rfl
  obtain ⟨hframes, result, hcontrol⟩ := Nat.find_spec hexists
  exact ⟨Nat.find hexists, result, hcontrol, hframes, fun fewer => Nat.find_min hexists⟩

end Calls

section Levels

-- The state of a parse: the first end of input lies ahead, and the depth counts the levels of
-- nesting that are open.
structure Machine.Sound (tokens : List Token) (m : Machine) : Prop where
  inside : m.index ≤ tokens.findIdx Token.isEof
  depth : m.depth = m.frames.countP Frame.isLevel
  limit : m.depth ≤ maxNesting

-- The states of a parse, from its first call on.
inductive Reached (tokens : List Token) : Machine → Prop where
  | start (complete : Bool) : Reached tokens (start complete)
  | next {m : Machine} : Reached tokens m → Reached tokens (step tokens m)

theorem sound_start (tokens : List Token) (complete : Bool) : (start complete).Sound tokens := by
  refine ⟨Nat.zero_le _, ?_, Nat.zero_le _⟩
  cases complete <;> rfl

theorem Leads.sound (h : Leads tokens m n) (hm : m.Sound tokens) : n.Sound tokens := by
  obtain ⟨hinside, hdepth, hlimit⟩ := hm
  refine ⟨?_, ?_, ?_⟩
  · obtain hindex | ⟨hindex, heof⟩ := h.index_eq
    · rwa [hindex]
    · rw [hindex]
      exact lt_findIdx_of_peek hinside heof
  · cases h with
    | leave =>
      simp only [List.countP_cons, Frame.isLevel, if_true] at hdepth
      exact Nat.sub_eq_of_eq_add hdepth
    | _ => simp_all [List.countP_cons, Frame.isLevel]
  · cases h with
    | deeper hroom => exact Nat.lt_of_le_of_ne hlimit hroom
    | leave => exact Nat.le_trans (Nat.sub_le _ _) hlimit
    | _ => exact hlimit

theorem Reached.sound (h : Reached tokens m) : m.Sound tokens := by
  induction h with
  | start complete => exact sound_start tokens complete
  | next _ ih => exact (leads_step tokens _).sound ih

theorem Reached.iterate (h : Reached tokens m) (count : Nat) :
    Reached tokens ((step tokens)^[count] m) := by
  induction count generalizing m with
  | zero => exact h
  | succ count ih => exact ih h.next

end Levels

section Tokens

-- A call that need not have taken a token yet, or a failure.
def Control.mayBeIdle : Control → Bool
  | call _ => true
  | back (.error _) => true
  | _ => false

-- What has been taken since some place. Only what began there can be there still.
structure Machine.Since (start : Nat) (m : Machine) : Prop where
  le : start ≤ m.index
  lt : m.control.mayBeIdle = false → start < m.index

theorem Leads.since {start : Nat} (h : Leads tokens m n) (hm : m.Since start) : n.Since start := by
  obtain ⟨hle, hlt⟩ := hm
  have hindex := h.index_eq
  refine ⟨by omega, ?_⟩
  cases h with
  | unary | leftParen | literal | close =>
    intro
    exact Nat.lt_succ_of_le hle
  | expression | chain | primary | foreign | operator | tooDeep | deeper | fail | unclosed | trailing =>
    rintro ⟨⟩
  | complete | leave | finished | same | first | further | negate | used => exact hlt

theorem Machine.Since.iterate {start : Nat} (h : m.Since start) (tokens : List Token) (count : Nat) :
    ((step tokens)^[count] m).Since start := by
  induction count generalizing m with
  | zero => exact h
  | succ count ih => exact ih ((leads_step tokens m).since h)

theorem since_of_call {routine : Routine} (hm : m.control = .call routine) : m.Since m.index := by
  refine ⟨Nat.le_refl _, ?_⟩
  rw [hm]
  rintro ⟨⟩

-- From the head of a loop to the next time at the head of the same loop.
structure Turn (tokens : List Token) (m : Machine) (count : Nat) : Prop where
  pos : 0 < count
  control : ∃ rank left, ((step tokens)^[count] m).control = .loop rank left
  frames : ((step tokens)^[count] m).frames = m.frames
  first : ∀ fewer, 0 < fewer → fewer < count → ((step tokens)^[fewer] m).frames ≠ m.frames

-- An operator is taken first, and then there is a call for an operand.
theorem Leads.of_loop {rank : Rank} {left : Expr} (h : Leads tokens m n)
    (hm : m.control = .loop rank left) :
    (n.frames = m.frames ∧ n.control = .back (.ok left)) ∨
      (n.control = .call (operandOf rank) ∧ n.index = m.index + 1) := by
  cases h with
  | operator =>
    cases hm
    exact .inr ⟨rfl, rfl⟩
  | complete =>
    cases hm
    exact .inl ⟨rfl, rfl⟩
  | _ => cases hm

-- A turn is an operator and a call for its right operand that comes back with a tree.
theorem Completes.turn {rank : Rank} {left right : Expr} {count : Nat}
    (h : Completes tokens (step tokens m) count (.ok right)) (hm : m.control = .loop rank left)
    (hrank : (peek tokens m.index).data.rank? = some rank) : Turn tokens m (count + 2) := by
  obtain ⟨control, frames, index, depth⟩ := m
  obtain rfl : control = .loop rank left := hm
  have hcall : (step tokens ⟨.loop rank left, frames, index, depth⟩).frames =
      .further rank left (peek tokens index) :: frames :=
    congrArg Machine.frames (Leads.operator rfl hrank).step_eq
  have hturn : ∃ index' depth', (step tokens)^[count + 2] ⟨.loop rank left, frames, index, depth⟩ =
      ⟨.loop rank (.binary left (peek tokens index) right), frames, index', depth'⟩ := by
    have hcontrol := h.control
    have hframes := h.frames.trans hcall
    rw [← Function.iterate_succ_apply] at hcontrol hframes
    rw [Function.iterate_succ_apply']
    generalize (step tokens)^[count + 1] ⟨.loop rank left, frames, index, depth⟩ = last at *
    obtain ⟨_, _, index', depth'⟩ := last
    cases hcontrol
    cases hframes
    exact ⟨index', depth', Leads.further.step_eq⟩
  obtain ⟨index', depth', hturn⟩ := hturn
  refine ⟨Nat.succ_pos _, ⟨rank, _, by rw [hturn]⟩, by rw [hturn], ?_⟩
  -- while the operand is read the frame of the operator lies on top of those of the loop
  intro fewer hpos hlt heq
  obtain ⟨less, rfl⟩ : ∃ less, fewer = less + 1 := ⟨fewer - 1, by omega⟩
  have hle := (h.suffix (Nat.lt_succ_iff.mp (Nat.lt_of_succ_lt_succ hlt))).length_le
  rw [hcall, ← Function.iterate_succ_apply, heq] at hle
  exact Nat.not_succ_le_self _ hle

theorem Turn.add_two_le {count : Nat} (h : Turn tokens m count) {rank : Rank} {left : Expr}
    (hm : m.control = .loop rank left) : m.index + 2 ≤ ((step tokens)^[count] m).index := by
  obtain ⟨hpos, ⟨rank', left', hcontrol⟩, -, hfirst⟩ := h
  obtain ⟨more, rfl⟩ : ∃ more, count = more + 1 := ⟨count - 1, by omega⟩
  obtain ⟨hframes, hback⟩ | ⟨hcall, hindex⟩ := (leads_step tokens m).of_loop hm
  · cases more with
    | zero =>
      rw [Nat.zero_add, Function.iterate_one, hback] at hcontrol
      cases hcontrol
    | succ more => exact absurd hframes (hfirst 1 Nat.one_pos (by omega))
  · have hsince := (since_of_call hcall).iterate tokens more
    rw [Function.iterate_succ_apply] at hcontrol ⊢
    have hlt := hsince.lt (by rw [hcontrol]; rfl)
    omega

end Tokens

section Completes

variable {count : Nat} {result : Except ParseError Expr}

-- A call leaves the depth as it was, whatever its result is.
theorem Completes.depth_eq (h : Completes tokens m count result) (hm : Reached tokens m) :
    ((step tokens)^[count] m).depth = m.depth := by
  rw [(hm.iterate count).sound.depth, hm.sound.depth, h.frames]

theorem Completes.index_lt {e : Expr} (h : Completes tokens m count (.ok e)) {routine : Routine}
    (hm : m.control = .call routine) : m.index < ((step tokens)^[count] m).index := by
  apply ((since_of_call hm).iterate tokens count).lt
  rw [h.control]
  rfl

end Completes

end Lox.Descent
