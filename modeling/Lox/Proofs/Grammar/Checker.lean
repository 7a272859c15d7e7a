import Lox.Proofs.Grammar.Longest
import Lox.Proofs.Grammar.Viable

namespace Lox

open Lox.Expr Lox.Grammar

namespace Checker

-- What has begun and is not complete yet: a unary operator without its operand, or a parenthesis
-- that is not closed.
inductive Opener where
  | mark
  | paren
  deriving DecidableEq

inductive Expecting where
  | operand
  | operator

-- The openers that are pending, the innermost of them first.
structure State where
  expecting : Expecting
  pending : List Opener

-- What a single token leads to.
inductive Step where
  | goOn (state : State)
  | accept
  | fault (cause : ParseCause)

def literalKinds : List Kind :=
  [.number, .str, .keyword .trueKw, .keyword .falseKw, .keyword .nilKw]

def operatorKinds : List Kind := betweenOperands.map Kind.symbol

def opener? : Kind → Option Opener
  | .symbol .leftParen => some .paren
  | .symbol .bang | .symbol .minus => some .mark
  | _ => none

-- A complete operand completes the unary operators in front of it.
def popMarks (pending : List Opener) : List Opener := pending.dropWhile (· = .mark)

def stepOperand (pending : List Opener) (kind : Kind) : Step :=
  if kind ∈ literalKinds then .goOn ⟨.operator, popMarks pending⟩
  else
    match opener? kind with
    | some opener =>
      if 128 ≤ pending.length then .fault .nestingTooDeep
      else .goOn ⟨.operand, opener :: pending⟩
    | none => .fault .expectedExpression

-- Behind an operand the innermost opener is a parenthesis, since the operand has completed every
-- unary operator in front of it.
def stepOperator (pending : List Opener) (kind : Kind) : Step :=
  if kind ∈ operatorKinds then .goOn ⟨.operand, pending⟩
  else
    match pending with
    | [] => if kind = .eof then .accept else .fault .expectedEof
    | _ :: outer =>
      if kind = .symbol .rightParen then .goOn ⟨.operator, popMarks outer⟩
      else .fault .missingRightParen

def step (state : State) (kind : Kind) : Step :=
  match state.expecting with
  | .operand => stepOperand state.pending kind
  | .operator => stepOperator state.pending kind

-- Reads tokens from left to right up to a verdict. There is none if the tokens end before it.
def run (state : State) : List Token → Option (Except ParseError Unit)
  | [] => none
  | t :: tokens =>
    match step state t.kind with
    | .goOn next => run next tokens
    | .accept => some (.ok ())
    | .fault cause => some (.error ⟨cause, t⟩)

-- The verdict on tokens, with an end of input behind the last one.
def check (tokens : List Token) : Option (Except ParseError Unit) :=
  run ⟨.operand, []⟩ (tokens ++ [Input.missingEof tokens])

theorem mem_literalKinds_iff {data : TokenData} :
    data.kind ∈ literalKinds ↔ data.literal?.isSome = true := by
  cases data with
  | keyword k => cases k <;> decide
  | symbol | identifier | str | number | eof =>
    simp [literalKinds, TokenData.kind, TokenData.literal?, TokenData.payload?]

section Kinds

variable {t : Token}

theorem mem_operatorKinds_iff : t.kind ∈ operatorKinds ↔ t.data.rank?.isSome = true := by
  rw [← continues_iff, operatorKinds, List.mem_map]
  constructor
  · rintro ⟨s, hs, hk⟩
    exact ⟨s, hs, hk.symm⟩
  · rintro ⟨s, hs, hk⟩
    exact ⟨s, hs, hk.symm⟩

theorem opener?_of_isUnary (h : t.data.isUnary = true) : opener? t.kind = some .mark := by
  obtain ⟨s, hs, hk⟩ := isUnary_iff.mp h
  rw [hk]
  cases s <;> first | rfl | (revert hs; decide)

theorem opens_of_opener? {opener : Opener} (h : opener? t.kind = some opener) : Opens t := by
  obtain ⟨data, span⟩ := t
  cases data with
  | symbol s => cases s <;> first | exact .inl rfl | exact .inr rfl | cases h
  | _ => cases h

theorem opener?_of_not_opens (h : ¬ Opens t) : opener? t.kind = none := by
  cases hopener : opener? t.kind with
  | none => rfl
  | some opener => exact absurd (opens_of_opener? hopener) h

theorem exists_opener? (h : Opens t) : ∃ opener, opener? t.kind = some opener := by
  rcases h with hunary | hparen
  · exact ⟨.mark, opener?_of_isUnary hunary⟩
  · exact ⟨.paren, by rw [hparen]; rfl⟩

-- What opens something is no value.
theorem not_mem_literalKinds {opener : Opener} (h : opener? t.kind = some opener) :
    t.kind ∉ literalKinds := by
  intro hmem
  generalize t.kind = kind at h hmem
  simp only [literalKinds, List.mem_cons, List.not_mem_nil, or_false] at hmem
  rcases hmem with rfl | rfl | rfl | rfl | rfl <;> cases h

end Kinds

section Steps

variable {t : Token} {pending : List Opener}

theorem step_literal {value : Literal} (h : t.data.literal? = some value) :
    step ⟨.operand, pending⟩ t.kind = .goOn ⟨.operator, popMarks pending⟩ := by
  have hmem : t.kind ∈ literalKinds := mem_literalKinds_iff.mpr (by rw [h, Option.isSome_some])
  simp [step, stepOperand, hmem]

theorem step_opener {opener : Opener} (h : opener? t.kind = some opener)
    (hroom : pending.length < 128) :
    step ⟨.operand, pending⟩ t.kind = .goOn ⟨.operand, opener :: pending⟩ := by
  have hmem := not_mem_literalKinds h
  have hle : ¬ 128 ≤ pending.length := Nat.not_le.mpr hroom
  simp [step, stepOperand, hmem, h, hle]

theorem step_tooDeep (h : Opens t) (hfull : 128 ≤ pending.length) :
    step ⟨.operand, pending⟩ t.kind = .fault .nestingTooDeep := by
  obtain ⟨opener, hopener⟩ := exists_opener? h
  have hmem := not_mem_literalKinds hopener
  simp [step, stepOperand, hmem, hopener, hfull]

theorem step_foreign (h : ¬ Opens t) (hvalue : t.data.literal? = none) :
    step ⟨.operand, pending⟩ t.kind = .fault .expectedExpression := by
  have hmem : t.kind ∉ literalKinds := by
    intro hmem
    have hsome := mem_literalKinds_iff.mp hmem
    rw [hvalue] at hsome
    cases hsome
  simp [step, stepOperand, hmem, opener?_of_not_opens h]

theorem step_operator {rank : Rank} (h : t.data.rank? = some rank) :
    step ⟨.operator, pending⟩ t.kind = .goOn ⟨.operand, pending⟩ := by
  have hmem : t.kind ∈ operatorKinds := mem_operatorKinds_iff.mpr (by rw [h, Option.isSome_some])
  simp [step, stepOperator, hmem]

theorem not_mem_operatorKinds (h : t.data.rank? = none) : t.kind ∉ operatorKinds := by
  rw [mem_operatorKinds_iff, h]
  simp

theorem step_closer {opener : Opener} (h : t.kind = .symbol .rightParen) :
    step ⟨.operator, opener :: pending⟩ t.kind = .goOn ⟨.operator, popMarks pending⟩ := by
  have hmem : Kind.symbol .rightParen ∉ operatorKinds := by decide
  simp [step, stepOperator, h, hmem]

theorem step_unclosed {opener : Opener} (h : t.data.rank? = none)
    (hcloser : t.kind ≠ .symbol .rightParen) :
    step ⟨.operator, opener :: pending⟩ t.kind = .fault .missingRightParen := by
  simp [step, stepOperator, not_mem_operatorKinds h, hcloser]

theorem step_trailing (h : t.data.rank? = none) (heof : t.kind ≠ .eof) :
    step ⟨.operator, []⟩ t.kind = .fault .expectedEof := by
  simp [step, stepOperator, not_mem_operatorKinds h, heof]

end Steps

section Runs

variable {state next : State} {t : Token} {cause : ParseCause}

theorem run_goOn (h : step state t.kind = .goOn next) (tokens : List Token) :
    run state (t :: tokens) = run next tokens := by
  rw [run, h]

theorem run_fault (h : step state t.kind = .fault cause) (tokens : List Token) :
    run state (t :: tokens) = some (.error ⟨cause, t⟩) := by
  rw [run, h]

theorem run_accept (h : step state t.kind = .accept) (tokens : List Token) :
    run state (t :: tokens) = some (.ok ()) := by
  rw [run, h]

-- The token at fault is the first one of the rest, or the end of input.
theorem run_fault_head {rest : List Token} {close : Token}
    (h : ∀ t ∈ (rest ++ [close]).head?, step state t.kind = .fault cause) (behind : List Token) :
    run state (rest ++ close :: behind) = some (.error ⟨cause, rest.headD close⟩) := by
  cases rest with
  | nil => exact run_fault (h close rfl) behind
  | cons t rest => exact run_fault (h t rfl) (rest ++ close :: behind)

end Runs

section Simulation

variable {close : Token} {behind : List Token}

-- What a run comes to where reading has come to a result: the fault that was found, or whatever the
-- tokens behind the expression lead to.
def resume (close : Token) (behind : List Token) (state : State) :
    Except Fault Front → Option (Except ParseError Unit)
  | .error fault => some (.error ⟨fault.cause, fault.rest.headD close⟩)
  | .ok front => run state (front.rest ++ close :: behind)

-- The room of a reader is what the pending openers have left of the limit. Behind its operand the
-- unary operators in front of the operand are complete.
def Checks (close : Token) (behind : List Token) (read : List Token → Except Fault Front)
    (room : Nat) : Prop :=
  ∀ pending tokens, pending.length + room = 128 →
    run ⟨.operand, pending⟩ (tokens ++ close :: behind) =
      resume close behind ⟨.operator, popMarks pending⟩ (read tokens)

section Chain

variable {operand : Reader} {room : Nat} {pending : List Opener}
  (h : Checks close behind operand.read room) (hroom : pending.length + room = 128)
  (hmarks : popMarks pending = pending)

include h hroom hmarks

theorem run_extend (left : Front) :
    run ⟨.operator, pending⟩ (left.rest ++ close :: behind) =
      resume close behind ⟨.operator, pending⟩ (extend operand left) := by
  fun_induction extend operand left with
  | case1 | case2 => rfl
  | case3 left operator tokens hrest rank hrank fault hright =>
    rw [hrest, List.cons_append, run_goOn (step_operator hrank), h pending tokens hroom, hright]
    rfl
  | case4 left operator tokens hrest rank hrank right hright ih =>
    rw [hrest, List.cons_append, run_goOn (step_operator hrank), h pending tokens hroom, hright,
      hmarks]
    exact ih

theorem run_readChain (tokens : List Token) :
    run ⟨.operand, pending⟩ (tokens ++ close :: behind) =
      resume close behind ⟨.operator, pending⟩ (readChain operand tokens) := by
  have hoperand := h pending tokens hroom
  rw [hmarks] at hoperand
  rw [hoperand, readChain]
  cases operand.read tokens with
  | error fault => rfl
  | ok left => exact run_extend h hroom hmarks left

end Chain

theorem popMarks_mark (pending : List Opener) : popMarks (.mark :: pending) = popMarks pending := rfl

theorem popMarks_paren (pending : List Opener) : popMarks (.paren :: pending) = .paren :: pending := rfl

section Openers

variable {operand : Reader} {room : Nat} {pending : List Opener} {opener : Token}
  (h : Checks close behind operand.read room) (hroom : pending.length + (room + 1) = 128)

include h hroom

theorem run_unary (hunary : opener.data.isUnary = true) (tokens : List Token) :
    run ⟨.operand, pending⟩ (opener :: (tokens ++ close :: behind)) =
      resume close behind ⟨.operator, popMarks pending⟩ (operand.read tokens) := by
  have hless : pending.length < 128 := by omega
  have hlength : (Opener.mark :: pending).length + room = 128 := by
    rw [List.length_cons]
    omega
  rw [run_goOn (step_opener (opener?_of_isUnary hunary) hless), h _ tokens hlength, popMarks_mark]

theorem run_leftParen (hopener : opener.kind = .symbol .leftParen) (tokens : List Token) :
    run ⟨.operand, pending⟩ (opener :: (tokens ++ close :: behind)) =
      resume close behind ⟨.operator, .paren :: pending⟩ (readChain operand tokens) := by
  have hparen : opener? opener.kind = some .paren := by
    rw [hopener]
    rfl
  have hless : pending.length < 128 := by omega
  have hlength : (Opener.paren :: pending).length + room = 128 := by
    rw [List.length_cons]
    omega
  rw [run_goOn (step_opener hparen hless), run_readChain h hlength (popMarks_paren pending)]

end Openers

section Operand

variable (hclose : close.kind = .eof)

include hclose

-- Behind an expression in parentheses there has to be the other one.
theorem run_unclosed {pending : List Opener} {rest : List Token} (hrest : Stops rest)
    (hcloser : ∀ closer ∈ rest.head?, closer.kind ≠ .symbol .rightParen) :
    run ⟨.operator, .paren :: pending⟩ (rest ++ close :: behind) =
      some (.error ⟨.missingRightParen, rest.headD close⟩) := by
  apply run_fault_head
  cases rest with
  | nil =>
    rintro t ⟨⟩
    rw [hclose]
    rfl
  | cons next rest =>
    rintro t ⟨⟩
    exact step_unclosed (hrest next rfl) (hcloser next rfl)

-- Each way in which reading an operand can go is a way in which the checker goes.
theorem checks_readOperand {deeper : Option Reader} {room : Nat} (hbelow : Below deeper room)
    (hchecks : ∀ operand less, deeper = some operand → room = less + 1 →
      Checks close behind operand.read less) :
    Checks close behind (readOperand deeper) room := by
  intro pending tokens hroom
  have houtcome := outcome_readOperand deeper tokens
  generalize readOperand deeper tokens = result at houtcome
  cases houtcome with
  | empty =>
    have hstep : step ⟨.operand, pending⟩ close.kind = .fault .expectedExpression := by
      rw [hclose]
      rfl
    exact run_fault hstep behind
  | foreign hopens hvalue => exact run_fault (step_foreign hopens hvalue) _
  | tooDeep hopens hdeeper =>
    subst hdeeper
    cases room with
    | zero => exact run_fault (step_tooDeep hopens (Nat.le_of_eq hroom.symm)) _
    | succ less =>
      obtain ⟨_, hsome, _⟩ := hbelow
      cases hsome
  | literal hvalue => exact run_goOn (step_literal hvalue) _
  | @unaryFault operator tokens operand fault hunary hdeeper hread =>
    subst hdeeper
    obtain ⟨less, rfl, _⟩ := hbelow.exact_of_some
    rw [List.cons_append, run_unary (hchecks operand less rfl rfl) hroom hunary, hread, resume]
  | @unary operator tokens operand inner hunary hdeeper hread =>
    subst hdeeper
    obtain ⟨less, rfl, _⟩ := hbelow.exact_of_some
    rw [List.cons_append, run_unary (hchecks operand less rfl rfl) hroom hunary, hread]
    rfl
  | @groupFault opener tokens operand fault hopener hdeeper hread =>
    subst hdeeper
    obtain ⟨less, rfl, _⟩ := hbelow.exact_of_some
    rw [List.cons_append, run_leftParen (hchecks operand less rfl rfl) hroom hopener, hread]
    rfl
  | @unclosed opener tokens operand inner hopener hdeeper hread hcloser =>
    subst hdeeper
    obtain ⟨less, rfl, hexact⟩ := hbelow.exact_of_some
    obtain ⟨_, _, _, _, hstops⟩ := hexact.readChain_sound hread
    rw [List.cons_append, run_leftParen (hchecks operand less rfl rfl) hroom hopener, hread]
    exact run_unclosed hclose hstops hcloser
  | @group opener closer tokens rest operand e hopener hdeeper hread hcloser =>
    subst hdeeper
    obtain ⟨less, rfl, _⟩ := hbelow.exact_of_some
    rw [List.cons_append, run_leftParen (hchecks operand less rfl rfl) hroom hopener, hread]
    exact run_goOn (step_closer hcloser) _

theorem checks_operand (room : Nat) : Checks close behind (operand room).read room := by
  induction room with
  | zero =>
    have hbelow : Below none 0 := rfl
    exact checks_readOperand hclose hbelow (by rintro _ _ ⟨⟩)
  | succ room ih =>
    have hbelow : Below (some (operand room)) (room + 1) := ⟨_, rfl, exact_operand room⟩
    apply checks_readOperand hclose hbelow
    rintro _ _ ⟨⟩ ⟨⟩
    exact ih

theorem run_read (tokens : List Token) :
    run ⟨.operand, []⟩ (tokens ++ close :: behind) =
      resume close behind ⟨.operator, []⟩ (Expr.read tokens) :=
  run_readChain (checks_operand hclose maxNesting) rfl rfl tokens

end Operand

end Simulation

-- The tokens that the checker reads are those that are parsed, with an end of input behind them.
theorem exists_eq_append (tokens : List Token) :
    ∃ behind, tokens ++ [Input.missingEof tokens] =
      (Input.ofTokens tokens).body ++ (Input.ofTokens tokens).close :: behind := by
  obtain ⟨tail, htokens, -, hclose⟩ := exists_tail tokens
  have hall : tokens ++ [Input.missingEof tokens] =
      (Input.ofTokens tokens).body ++ (tail ++ [Input.missingEof tokens]) := by
    rw [← List.append_assoc, ← htokens]
  rw [hall, hclose]
  cases tail with
  | nil => exact ⟨[], rfl⟩
  | cons close tail => exact ⟨tail ++ [Input.missingEof tokens], rfl⟩

-- The checker comes to a verdict on all tokens, and it is what parsing them all together comes to.
theorem check_eq_parseComplete (tokens : List Token) :
    check tokens = some ((parseComplete tokens).map fun _ => ()) := by
  obtain ⟨behind, htokens⟩ := exists_eq_append tokens
  have hclose := kind_close tokens
  rw [check, htokens, run_read hclose]
  obtain ⟨e, hread, hresult⟩ | ⟨fault, hread, hresult⟩ | ⟨e, t, rest, hread, hresult⟩ :=
    parseComplete_cases tokens
  · have hstep : step ⟨.operator, []⟩ (Input.ofTokens tokens).close.kind = .accept := by
      rw [hclose]
      rfl
    rw [hread, hresult]
    exact run_accept hstep behind
  · rw [hread, hresult]
    rfl
  · obtain ⟨used, hbody, _, _, hstops⟩ := read_eq_ok_iff.mp hread
    have hmem : t ∈ (Input.ofTokens tokens).body := by
      rw [hbody]
      simp
    have heof : t.kind ≠ .eof := by
      rintro heq
      exact eof_notMem_body tokens (heq ▸ List.mem_map_of_mem hmem)
    rw [hread, hresult]
    exact run_fault (step_trailing (hstops t rfl) heof) _

-- Operators and parentheses count together.
example :
    let minus : Token := .ofLexeme (.symbol .minus) "-"
    let opener : Token := .ofLexeme (.symbol .leftParen) "("
    check (List.replicate 128 minus ++ [opener]) = some (.error ⟨.nestingTooDeep, opener⟩) := by
  rfl

end Checker

end Lox
