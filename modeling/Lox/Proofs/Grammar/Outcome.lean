import Lox.Expr.Parse

namespace Lox.Expr

-- A token that has to be followed by an expression of the next level of nesting.
def Opens (t : Token) : Prop := t.data.isUnary = true ∨ t.kind = .symbol .leftParen

-- Tokens with which a chain of operands cannot go on.
def Stops (tokens : List Token) : Prop := ∀ t ∈ tokens.head?, t.data.rank? = none

-- Everything that reading an operand can come to.
inductive Outcome (deeper : Option Reader) : List Token → Except Fault Front → Prop where
  | empty : Outcome deeper [] (.error ⟨.expectedExpression, []⟩)
  | foreign {token : Token} {tokens : List Token} :
      ¬ Opens token → token.data.literal? = none →
      Outcome deeper (token :: tokens) (.error ⟨.expectedExpression, token :: tokens⟩)
  | tooDeep {token : Token} {tokens : List Token} :
      Opens token → deeper = none →
      Outcome deeper (token :: tokens) (.error ⟨.nestingTooDeep, token :: tokens⟩)
  | unaryFault {operator : Token} {tokens : List Token} {operand : Reader} {fault : Fault} :
      operator.data.isUnary = true → deeper = some operand → operand.read tokens = .error fault →
      Outcome deeper (operator :: tokens) (.error fault)
  | groupFault {opener : Token} {tokens : List Token} {operand : Reader} {fault : Fault} :
      opener.kind = .symbol .leftParen → deeper = some operand →
      readChain operand tokens = .error fault → Outcome deeper (opener :: tokens) (.error fault)
  | unclosed {opener : Token} {tokens : List Token} {operand : Reader} {inner : Front} :
      opener.kind = .symbol .leftParen → deeper = some operand →
      readChain operand tokens = .ok inner →
      (∀ closer ∈ inner.rest.head?, closer.kind ≠ .symbol .rightParen) →
      Outcome deeper (opener :: tokens) (.error ⟨.missingRightParen, inner.rest⟩)
  | literal {token : Token} {tokens : List Token} {value : Literal} :
      token.data.literal? = some value →
      Outcome deeper (token :: tokens) (.ok ⟨.literal value, tokens⟩)
  | unary {operator : Token} {tokens : List Token} {operand : Reader} {inner : Front} :
      operator.data.isUnary = true → deeper = some operand → operand.read tokens = .ok inner →
      Outcome deeper (operator :: tokens) (.ok ⟨.unary operator inner.expr, inner.rest⟩)
  | group {opener closer : Token} {tokens rest : List Token} {operand : Reader} {e : Expr} :
      opener.kind = .symbol .leftParen → deeper = some operand →
      readChain operand tokens = .ok ⟨e, closer :: rest⟩ → closer.kind = .symbol .rightParen →
      Outcome deeper (opener :: tokens) (.ok ⟨.grouping e, rest⟩)

-- Reading an operand comes to something, and never to anything else.
theorem outcome_readOperand (deeper : Option Reader) (tokens : List Token) :
    Outcome deeper tokens (readOperand deeper tokens) := by
  cases tokens with
  | nil => exact .empty
  | cons token tokens =>
    simp only [readOperand]
    split
    · rename_i hunary
      cases deeper with
      | none => exact .tooDeep (.inl hunary) rfl
      | some operand =>
        cases hread : operand.read tokens with
        | error fault => simpa only [hread] using .unaryFault hunary rfl hread
        | ok inner => simpa only [hread] using .unary hunary rfl hread
    · rename_i hunary
      split
      · rename_i hopener
        cases deeper with
        | none => exact .tooDeep (.inr hopener) rfl
        | some operand =>
          cases hread : readChain operand tokens with
          | error fault => simpa only [hread] using .groupFault hopener rfl hread
          | ok inner =>
            obtain ⟨e, rest⟩ := inner
            simp only [hread, readOperand.closeGroup]
            cases rest with
            | nil => exact .unclosed hopener rfl hread (by simp)
            | cons closer rest =>
              by_cases hcloser : closer.kind = .symbol .rightParen
              · simpa only [hcloser, if_true] using .group hopener rfl hread hcloser
              · simpa only [hcloser, if_false] using
                  .unclosed hopener rfl hread (by simpa using hcloser)
      · rename_i hopener
        cases hvalue : token.data.literal? with
        | some value => exact .literal hvalue
        | none => exact .foreign (by simp [Opens, hunary, hopener]) hvalue

-- A token with a value of its own opens nothing.
theorem not_opens_of_literal? {t : Token} {value : Literal} (h : t.data.literal? = some value) :
    t.data.isUnary = false ∧ t.kind ≠ .symbol .leftParen := by
  obtain ⟨data, span⟩ := t
  cases data with
  | symbol s => cases h
  | _ => exact ⟨rfl, by simp [Token.kind, TokenData.kind]⟩

theorem not_isUnary_of_leftParen {t : Token} (h : t.kind = .symbol .leftParen) :
    t.data.isUnary = false := by
  obtain ⟨data, span⟩ := t
  cases data with
  | symbol s =>
    cases h
    rfl
  | _ => rfl

-- The outcome is settled by the tokens, so each way of reading describes a single result.
theorem readOperand_eq_of_outcome {deeper : Option Reader} {tokens : List Token}
    {result : Except Fault Front} (h : Outcome deeper tokens result) :
    readOperand deeper tokens = result := by
  cases h with
  | empty => rfl
  | foreign hopens hvalue =>
    obtain ⟨hunary, hopener⟩ := not_or.mp hopens
    simp [readOperand, hunary, hopener, hvalue]
  | tooDeep hopens hdeeper =>
    rcases hopens with hunary | hopener
    · simp [readOperand, hunary, hdeeper]
    · simp [readOperand, not_isUnary_of_leftParen hopener, hopener, hdeeper]
  | unaryFault hunary hdeeper hread | unary hunary hdeeper hread =>
    simp [readOperand, hunary, hdeeper, hread]
  | groupFault hopener hdeeper hread =>
    simp [readOperand, not_isUnary_of_leftParen hopener, hopener, hdeeper, hread]
  | @unclosed _ _ _ inner hopener hdeeper hread hcloser =>
    obtain ⟨e, rest⟩ := inner
    cases rest with
    | nil =>
      simp [readOperand, not_isUnary_of_leftParen hopener, hopener, hdeeper, hread,
        readOperand.closeGroup]
    | cons closer rest =>
      have hne : closer.kind ≠ .symbol .rightParen := hcloser closer rfl
      simp [readOperand, not_isUnary_of_leftParen hopener, hopener, hdeeper, hread,
        readOperand.closeGroup, hne]
  | literal hvalue =>
    obtain ⟨hunary, hopener⟩ := not_opens_of_literal? hvalue
    simp [readOperand, hunary, hopener, hvalue]
  | group hopener hdeeper hread hcloser =>
    simp [readOperand, not_isUnary_of_leftParen hopener, hopener, hdeeper, hread,
      readOperand.closeGroup, hcloser]

theorem extend_of_stops (operand : Reader) (e : Expr) {tokens : List Token} (h : Stops tokens) :
    extend operand ⟨e, tokens⟩ = .ok ⟨e, tokens⟩ := by
  cases tokens with
  | nil => simp [extend]
  | cons t tokens =>
    have hrank : t.data.rank? = none := h t rfl
    rw [extend]
    simp [hrank]

-- Reads an operand into a hole of a tree, and goes on from there.
def readInto (operand : Reader) (fill : Expr → Expr) (tokens : List Token) : Except Fault Front :=
  match operand.read tokens with
  | .error fault => .error fault
  | .ok front => extend operand ⟨fill front.expr, front.rest⟩

theorem readChain_eq_readInto (operand : Reader) (tokens : List Token) :
    readChain operand tokens = readInto operand id tokens := rfl

-- Behind an operator the next operand has its place on the right side of the tree.
theorem extend_operator {operand : Reader} (e : Expr) {operator : Token} {tokens : List Token}
    {rank : Rank} (h : operator.data.rank? = some rank) :
    extend operand ⟨e, operator :: tokens⟩ = readInto operand (e.attach rank operator) tokens := by
  rw [extend, readInto]
  simp only [h]
  cases operand.read tokens <;> rfl

end Lox.Expr

namespace Lox

-- Everything that parsing some tokens all together can come to.
theorem parseComplete_cases (tokens : List Token) :
    (∃ e, Expr.read (Input.ofTokens tokens).body = .ok ⟨e, []⟩ ∧ parseComplete tokens = .ok e) ∨
    (∃ fault, Expr.read (Input.ofTokens tokens).body = .error fault ∧
      parseComplete tokens = .error ((Input.ofTokens tokens).error fault)) ∨
    (∃ e t rest, Expr.read (Input.ofTokens tokens).body = .ok ⟨e, t :: rest⟩ ∧
      parseComplete tokens = .error ((Input.ofTokens tokens).error ⟨.expectedEof, t :: rest⟩)) := by
  cases hread : Expr.read (Input.ofTokens tokens).body with
  | error fault => exact .inr (.inl ⟨fault, rfl, by simp [parseComplete, hread]⟩)
  | ok front =>
    obtain ⟨e, rest⟩ := front
    cases rest with
    | nil => exact .inl ⟨e, rfl, by simp [parseComplete, hread]⟩
    | cons t rest => exact .inr (.inr ⟨e, t, rest, rfl, by simp [parseComplete, hread]⟩)

end Lox
