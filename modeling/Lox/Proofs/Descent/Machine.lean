import Lox.Proofs.Grammar.End
import Mathlib.Logic.Function.Iterate

namespace Lox.Descent

open Lox.Expr

-- Parsing goes through the tokens by index here, with a routine for every rule of the grammar. The
-- calls that are open are a list of frames, so that there is a state between any two steps.

inductive Routine where
  | expression
  | chain (rank : Rank)
  | unary
  | primary

-- The routine for what stands between the operators of a rank.
def operandOf : Rank → Routine
  | .equality => .chain .comparison
  | .comparison => .chain .term
  | .term => .chain .factor
  | .factor => .unary

-- How a caller goes on with the result of its call.
inductive Frame where
  -- all tokens have to be used up
  | whole
  -- the result is handed on as it is
  | same
  | first (rank : Rank)
  | further (rank : Rank) (left : Expr) (operator : Token)
  -- one more level of nesting is open
  | level
  | negate (operator : Token)
  | group

def Frame.isLevel : Frame → Bool
  | level => true
  | _ => false

inductive Control where
  | call (routine : Routine)
  -- in front of what may be a further operator of the rank
  | loop (rank : Rank) (left : Expr)
  -- a call behind an opener, one level deeper
  | enter (opener : Token) (routine : Routine)
  | back (result : Except ParseError Expr)

structure Machine where
  control : Control
  frames : List Frame
  index : Nat
  depth : Nat

-- Stands for every token behind the last one.
def standIn (tokens : List Token) : Token :=
  match tokens.getLast? with
  | some last => if last.isEof then last else .eofAt last.span.stop
  | none => .eofAt (.start "")

def peek (tokens : List Token) (index : Nat) : Token := tokens[index]?.getD (standIn tokens)

-- The end of input is read without going over it.
def advance (tokens : List Token) (index : Nat) : Nat :=
  if (peek tokens index).isEof then index else index + 1

def call (tokens : List Token) (m : Machine) : Routine → Machine
  | .expression => { m with control := .call (.chain .equality), frames := .same :: m.frames }
  | .chain rank => { m with control := .call (operandOf rank), frames := .first rank :: m.frames }
  | .unary =>
    let t := peek tokens m.index
    if t.data.isUnary then
      { m with
        control := .enter t .unary
        frames := .negate t :: m.frames
        index := advance tokens m.index }
    else { m with control := .call .primary, frames := .same :: m.frames }
  | .primary =>
    let t := peek tokens m.index
    let index := advance tokens m.index
    if t.kind = .symbol .leftParen then
      { m with control := .enter t .expression, frames := .group :: m.frames, index }
    else
      match t.data.literal? with
      | some value => { m with control := .back (.ok (.literal value)), index }
      | none => { m with control := .back (.error ⟨.expectedExpression, t⟩), index }

def loop (tokens : List Token) (m : Machine) (rank : Rank) (left : Expr) : Machine :=
  let t := peek tokens m.index
  if t.data.rank? = some rank then
    { m with
      control := .call (operandOf rank)
      frames := .further rank left t :: m.frames
      index := advance tokens m.index }
  else { m with control := .back (.ok left) }

def enter (m : Machine) (opener : Token) (routine : Routine) : Machine :=
  if m.depth = maxNesting then { m with control := .back (.error ⟨.nestingTooDeep, opener⟩) }
  else { m with control := .call routine, frames := .level :: m.frames, depth := m.depth + 1 }

-- Gives a tree back if the token behind it is the one that has to be there.
def expect (tokens : List Token) (m : Machine) (kind : Kind) (cause : ParseCause) (e : Expr) :
    Machine :=
  let t := peek tokens m.index
  if t.kind = kind then { m with control := .back (.ok e), index := advance tokens m.index }
  else { m with control := .back (.error ⟨cause, t⟩) }

-- Only the level of nesting has to be left in any case. All other frames hand an error on.
def resume (tokens : List Token) (m : Machine) : Frame → Except ParseError Expr → Machine
  | .level, result => { m with control := .back result, depth := m.depth - 1 }
  | _, .error e => { m with control := .back (.error e) }
  | .whole, .ok e => expect tokens m .eof .expectedEof e
  | .same, .ok e => { m with control := .back (.ok e) }
  | .first rank, .ok e => { m with control := .loop rank e }
  | .further rank left operator, .ok e => { m with control := .loop rank (.binary left operator e) }
  | .negate operator, .ok e => { m with control := .back (.ok (.unary operator e)) }
  | .group, .ok e => expect tokens m (.symbol .rightParen) .missingRightParen (.grouping e)

-- A result that nobody waits for is the last one.
def step (tokens : List Token) (m : Machine) : Machine :=
  match m.control, m.frames with
  | .call routine, _ => call tokens m routine
  | .loop rank left, _ => loop tokens m rank left
  | .enter opener routine, _ => enter m opener routine
  | .back _, [] => m
  | .back result, frame :: frames => resume tokens { m with frames } frame result

-- The first call of a parse. It has a caller if the expression has to make up all of the tokens.
def start (complete : Bool) : Machine :=
  ⟨.call .expression, if complete then [.whole] else [], 0, 0⟩

section Eof

variable {t : Token}

-- A token in which something is not as it is at the end of input.
theorem not_isEof_of_ne {α : Type} (feature : TokenData → α) (h : feature t.data ≠ feature .eof) :
    t.isEof = false := by
  obtain ⟨data, span⟩ := t
  cases data with
  | eof => exact absurd rfl h
  | _ => rfl

theorem not_isEof_of_isUnary (h : t.data.isUnary = true) : t.isEof = false :=
  not_isEof_of_ne TokenData.isUnary (by rw [h]; decide)

theorem not_isEof_of_rank? {rank : Rank} (h : t.data.rank? = some rank) : t.isEof = false :=
  not_isEof_of_ne TokenData.rank? (by rw [h]; rintro ⟨⟩)

theorem not_isEof_of_literal? {value : Literal} (h : t.data.literal? = some value) :
    t.isEof = false :=
  not_isEof_of_ne TokenData.literal? (by rw [h]; rintro ⟨⟩)

theorem not_isEof_of_symbol {s : Symbol} (h : t.kind = .symbol s) : t.isEof = false := by
  apply not_isEof_of_ne TokenData.kind
  rw [← Token.kind, h]
  rintro ⟨⟩

end Eof

section Tokens

variable {tokens : List Token} {index : Nat}

theorem isEof_standIn (tokens : List Token) : (standIn tokens).isEof = true := by
  unfold standIn
  split
  · split
    · assumption
    · rfl
  · rfl

theorem lt_length_of_peek (h : (peek tokens index).isEof = false) : index < tokens.length := by
  by_contra hle
  rw [peek, List.getElem?_eq_none (Nat.not_lt.mp hle), Option.getD_none, isEof_standIn] at h
  cases h

theorem advance_of_not_eof (h : (peek tokens index).isEof = false) :
    advance tokens index = index + 1 := by
  rw [advance, h]
  rfl

-- The first end of input is not gone over, and neither is the end of the tokens.
theorem lt_findIdx_of_peek (h : index ≤ tokens.findIdx Token.isEof)
    (hpeek : (peek tokens index).isEof = false) : index < tokens.findIdx Token.isEof := by
  have hlt := lt_length_of_peek hpeek
  rw [peek, List.getElem?_eq_getElem hlt, Option.getD_some] at hpeek
  apply Nat.lt_of_le_of_ne h
  rintro rfl
  rw [List.findIdx_getElem (w := hlt)] at hpeek
  cases hpeek

end Tokens

section Steps

variable (tokens : List Token)

-- All that a step can do, and when it does so.
inductive Leads : Machine → Machine → Prop where
  | expression {frames : List Frame} {index depth : Nat} :
      Leads ⟨.call .expression, frames, index, depth⟩
        ⟨.call (.chain .equality), .same :: frames, index, depth⟩
  | chain {rank : Rank} {frames : List Frame} {index depth : Nat} :
      Leads ⟨.call (.chain rank), frames, index, depth⟩
        ⟨.call (operandOf rank), .first rank :: frames, index, depth⟩
  | unary {t : Token} {frames : List Frame} {index depth : Nat} :
      peek tokens index = t → t.data.isUnary = true →
      Leads ⟨.call .unary, frames, index, depth⟩
        ⟨.enter t .unary, .negate t :: frames, index + 1, depth⟩
  | primary {frames : List Frame} {index depth : Nat} :
      (peek tokens index).data.isUnary = false →
      Leads ⟨.call .unary, frames, index, depth⟩ ⟨.call .primary, .same :: frames, index, depth⟩
  | leftParen {t : Token} {frames : List Frame} {index depth : Nat} :
      peek tokens index = t → t.kind = .symbol .leftParen →
      Leads ⟨.call .primary, frames, index, depth⟩
        ⟨.enter t .expression, .group :: frames, index + 1, depth⟩
  | literal {value : Literal} {frames : List Frame} {index depth : Nat} :
      (peek tokens index).data.literal? = some value →
      Leads ⟨.call .primary, frames, index, depth⟩
        ⟨.back (.ok (.literal value)), frames, index + 1, depth⟩
  | foreign {t : Token} {frames : List Frame} {index depth : Nat} :
      peek tokens index = t → t.kind ≠ .symbol .leftParen → t.data.literal? = none →
      Leads ⟨.call .primary, frames, index, depth⟩
        ⟨.back (.error ⟨.expectedExpression, t⟩), frames, advance tokens index, depth⟩
  | operator {t : Token} {rank : Rank} {left : Expr} {frames : List Frame} {index depth : Nat} :
      peek tokens index = t → t.data.rank? = some rank →
      Leads ⟨.loop rank left, frames, index, depth⟩
        ⟨.call (operandOf rank), .further rank left t :: frames, index + 1, depth⟩
  | complete {rank : Rank} {left : Expr} {frames : List Frame} {index depth : Nat} :
      (peek tokens index).data.rank? ≠ some rank →
      Leads ⟨.loop rank left, frames, index, depth⟩ ⟨.back (.ok left), frames, index, depth⟩
  | tooDeep {opener : Token} {routine : Routine} {frames : List Frame} {index depth : Nat} :
      depth = maxNesting →
      Leads ⟨.enter opener routine, frames, index, depth⟩
        ⟨.back (.error ⟨.nestingTooDeep, opener⟩), frames, index, depth⟩
  | deeper {opener : Token} {routine : Routine} {frames : List Frame} {index depth : Nat} :
      depth ≠ maxNesting →
      Leads ⟨.enter opener routine, frames, index, depth⟩
        ⟨.call routine, .level :: frames, index, depth + 1⟩
  | finished {result : Except ParseError Expr} {index depth : Nat} :
      Leads ⟨.back result, [], index, depth⟩ ⟨.back result, [], index, depth⟩
  | leave {result : Except ParseError Expr} {frames : List Frame} {index depth : Nat} :
      Leads ⟨.back result, .level :: frames, index, depth⟩ ⟨.back result, frames, index, depth - 1⟩
  | fail {error : ParseError} {frame : Frame} {frames : List Frame} {index depth : Nat} :
      frame.isLevel = false →
      Leads ⟨.back (.error error), frame :: frames, index, depth⟩
        ⟨.back (.error error), frames, index, depth⟩
  | same {e : Expr} {frames : List Frame} {index depth : Nat} :
      Leads ⟨.back (.ok e), .same :: frames, index, depth⟩ ⟨.back (.ok e), frames, index, depth⟩
  | first {rank : Rank} {e : Expr} {frames : List Frame} {index depth : Nat} :
      Leads ⟨.back (.ok e), .first rank :: frames, index, depth⟩
        ⟨.loop rank e, frames, index, depth⟩
  | further {rank : Rank} {left e : Expr} {operator : Token} {frames : List Frame}
      {index depth : Nat} :
      Leads ⟨.back (.ok e), .further rank left operator :: frames, index, depth⟩
        ⟨.loop rank (.binary left operator e), frames, index, depth⟩
  | negate {e : Expr} {operator : Token} {frames : List Frame} {index depth : Nat} :
      Leads ⟨.back (.ok e), .negate operator :: frames, index, depth⟩
        ⟨.back (.ok (.unary operator e)), frames, index, depth⟩
  | close {e : Expr} {frames : List Frame} {index depth : Nat} :
      (peek tokens index).kind = .symbol .rightParen →
      Leads ⟨.back (.ok e), .group :: frames, index, depth⟩
        ⟨.back (.ok (.grouping e)), frames, index + 1, depth⟩
  | unclosed {t : Token} {e : Expr} {frames : List Frame} {index depth : Nat} :
      peek tokens index = t → t.kind ≠ .symbol .rightParen →
      Leads ⟨.back (.ok e), .group :: frames, index, depth⟩
        ⟨.back (.error ⟨.missingRightParen, t⟩), frames, index, depth⟩
  | used {e : Expr} {frames : List Frame} {index depth : Nat} :
      (peek tokens index).kind = .eof →
      Leads ⟨.back (.ok e), .whole :: frames, index, depth⟩ ⟨.back (.ok e), frames, index, depth⟩
  | trailing {t : Token} {e : Expr} {frames : List Frame} {index depth : Nat} :
      peek tokens index = t → t.kind ≠ .eof →
      Leads ⟨.back (.ok e), .whole :: frames, index, depth⟩
        ⟨.back (.error ⟨.expectedEof, t⟩), frames, index, depth⟩

variable {tokens}
variable {m n : Machine}

theorem Leads.step_eq (h : Leads tokens m n) : step tokens m = n := by
  cases h with
  | expression | chain | finished | leave | same | first | further | negate => rfl
  | unary hpeek hunary =>
    subst hpeek
    simp [step, call, hunary, advance_of_not_eof (not_isEof_of_isUnary hunary)]
  | primary hunary => simp [step, call, hunary]
  | leftParen hpeek hparen =>
    subst hpeek
    simp [step, call, hparen, advance_of_not_eof (not_isEof_of_symbol hparen)]
  | literal hvalue =>
    have hparen := (not_opens_of_literal? hvalue).2
    simp [step, call, hparen, hvalue, advance_of_not_eof (not_isEof_of_literal? hvalue)]
  | foreign hpeek hparen hvalue =>
    subst hpeek
    simp [step, call, hparen, hvalue]
  | operator hpeek hrank =>
    subst hpeek
    simp [step, loop, hrank, advance_of_not_eof (not_isEof_of_rank? hrank)]
  | complete hrank => simp [step, loop, hrank]
  | tooDeep hdepth => simp [step, enter, hdepth]
  | deeper hdepth => simp [step, enter, hdepth]
  | @fail error frame frames index depth hframe => cases frame <;> first | rfl | cases hframe
  | close hparen => simp [step, resume, expect, hparen, advance_of_not_eof (not_isEof_of_symbol hparen)]
  | unclosed hpeek hparen =>
    subst hpeek
    simp [step, resume, expect, hparen]
  | used heof => simp [step, resume, expect, heof, advance, isEof_of_kind heof]
  | trailing hpeek heof =>
    subst hpeek
    simp [step, resume, expect, heof]

theorem Leads.to_step (h : Leads tokens m n) : Leads tokens m (step tokens m) := by rwa [h.step_eq]

theorem leads_call (tokens : List Token) (routine : Routine) (frames : List Frame)
    (index depth : Nat) :
    let m : Machine := ⟨.call routine, frames, index, depth⟩
    Leads tokens m (step tokens m) := by
  intro m
  cases routine with
  | expression => exact .expression
  | chain rank => exact .chain
  | unary =>
    cases hunary : (peek tokens index).data.isUnary with
    | true => exact (Leads.unary rfl hunary).to_step
    | false => exact (Leads.primary hunary).to_step
  | primary =>
    by_cases hparen : (peek tokens index).kind = .symbol .leftParen
    · exact (Leads.leftParen rfl hparen).to_step
    · cases hvalue : (peek tokens index).data.literal? with
      | some value => exact (Leads.literal hvalue).to_step
      | none => exact (Leads.foreign rfl hparen hvalue).to_step

theorem leads_back (tokens : List Token) (result : Except ParseError Expr) (frames : List Frame)
    (index depth : Nat) :
    let m : Machine := ⟨.back result, frames, index, depth⟩
    Leads tokens m (step tokens m) := by
  intro m
  cases frames with
  | nil => exact .finished
  | cons frame frames =>
    cases hframe : frame.isLevel with
    | true =>
      cases frame <;> first | exact .leave | cases hframe
    | false =>
      cases result with
      | error error => exact (Leads.fail hframe).to_step
      | ok e =>
        cases frame with
        | level => cases hframe
        | same => exact .same
        | first rank => exact .first
        | further rank left operator => exact .further
        | negate operator => exact .negate
        | whole =>
          by_cases heof : (peek tokens index).kind = .eof
          · exact (Leads.used heof).to_step
          · exact (Leads.trailing rfl heof).to_step
        | group =>
          by_cases hparen : (peek tokens index).kind = .symbol .rightParen
          · exact (Leads.close hparen).to_step
          · exact (Leads.unclosed rfl hparen).to_step

-- A step does one of these things.
theorem leads_step (tokens : List Token) (m : Machine) : Leads tokens m (step tokens m) := by
  obtain ⟨control, frames, index, depth⟩ := m
  cases control with
  | call routine => exact leads_call tokens routine frames index depth
  | loop rank left =>
    by_cases hrank : (peek tokens index).data.rank? = some rank
    · exact (Leads.operator rfl hrank).to_step
    · exact (Leads.complete hrank).to_step
  | enter opener routine =>
    by_cases hdepth : depth = maxNesting
    · exact (Leads.tooDeep hdepth).to_step
    · exact (Leads.deeper hdepth).to_step
  | back result => exact leads_back tokens result frames index depth

end Steps

end Lox.Descent
