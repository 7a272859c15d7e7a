import Lox.Expr.Error
import Lox.Expr.Rank

namespace Lox.Expr

-- Why no expression could be read. The offending token is the first one of the rest; where
-- there is no rest, the end of the tokens is at fault.
structure Fault where
  cause : ParseCause
  rest : List Token

-- An expression at the front of some tokens, and the tokens behind it.
structure Front where
  expr : Expr
  rest : List Token

-- A way to read an expression that takes at least one token. So whatever reads one expression
-- behind the other comes to an end.
structure Reader where
  read : List Token → Except Fault Front
  shorter {tokens : List Token} {front : Front} :
    read tokens = .ok front → front.rest.length < tokens.length

-- Goes on as long as a binary operator comes next, which has to be followed by an operand.
def extend (operand : Reader) (left : Front) : Except Fault Front :=
  match _hrest : left.rest with
  | [] => .ok left
  | operator :: tokens =>
    match operator.data.rank? with
    | none => .ok left
    | some rank =>
      match _hright : operand.read tokens with
      | .error fault => .error fault
      | .ok right => extend operand ⟨left.expr.attach rank operator right.expr, right.rest⟩
termination_by left.rest.length
decreasing_by
  have hright := operand.shorter _hright
  simp only [_hrest, List.length_cons]
  omega

theorem length_of_extend {operand : Reader} {left front : Front}
    (h : extend operand left = .ok front) : front.rest.length ≤ left.rest.length := by
  fun_induction extend operand left with
  | case1 left hrest => simp_all
  | case2 left operator tokens hrest hrank => simp_all
  | case3 => simp at h
  | case4 left operator tokens hrest rank hrank right hright ih =>
    have hshorter := operand.shorter hright
    have htail := ih h
    simp only [hrest, List.length_cons] at htail ⊢
    omega

-- Operands with binary operators between them.
def readChain (operand : Reader) (tokens : List Token) : Except Fault Front :=
  match operand.read tokens with
  | .error fault => .error fault
  | .ok left => extend operand left

theorem shorter_of_readChain {operand : Reader} {tokens : List Token} {front : Front}
    (h : readChain operand tokens = .ok front) : front.rest.length < tokens.length := by
  unfold readChain at h
  split at h
  · simp at h
  · rename_i left hleft
    exact Nat.lt_of_le_of_lt (length_of_extend h) (operand.shorter hleft)

-- A literal, or an operand behind a unary operator, or a chain of operands in parentheses. The
-- last two lie one level deeper, and fail where there is no deeper level.
def readOperand (deeper : Option Reader) : List Token → Except Fault Front
  | [] => .error ⟨.expectedExpression, []⟩
  | token :: tokens =>
    if token.data.isUnary then
      match deeper with
      | none => .error ⟨.nestingTooDeep, token :: tokens⟩
      | some operand =>
        match operand.read tokens with
        | .error fault => .error fault
        | .ok inner => .ok ⟨unary token inner.expr, inner.rest⟩
    else if token.kind = .symbol .leftParen then
      match deeper with
      | none => .error ⟨.nestingTooDeep, token :: tokens⟩
      | some operand =>
        match readChain operand tokens with
        | .error fault => .error fault
        | .ok inner => closeGroup inner
    else
      match token.data.literal? with
      | some value => .ok ⟨literal value, tokens⟩
      | none => .error ⟨.expectedExpression, token :: tokens⟩
where
  closeGroup (inner : Front) : Except Fault Front :=
    match inner.rest with
    | [] => .error ⟨.missingRightParen, []⟩
    | closer :: tokens =>
      if closer.kind = .symbol .rightParen then .ok ⟨grouping inner.expr, tokens⟩
      else .error ⟨.missingRightParen, closer :: tokens⟩

theorem shorter_of_closeGroup {inner front : Front}
    (h : readOperand.closeGroup inner = .ok front) :
    front.rest.length < inner.rest.length := by
  unfold readOperand.closeGroup at h
  split at h
  · simp at h
  · rename_i closer tokens hrest
    split at h
    · simp only [Except.ok.injEq] at h
      simp [← h, hrest]
    · simp at h

theorem shorter_of_readOperand {deeper : Option Reader} {tokens : List Token} {front : Front}
    (h : readOperand deeper tokens = .ok front) : front.rest.length < tokens.length := by
  cases tokens with
  | nil => simp [readOperand] at h
  | cons token tokens =>
    simp only [readOperand] at h
    rw [List.length_cons]
    split at h
    · split at h
      · simp at h
      · rename_i operand
        split at h
        · simp at h
        · rename_i inner hinner
          simp only [Except.ok.injEq] at h
          subst h
          have hshorter := operand.shorter hinner
          exact Nat.lt_succ_of_lt hshorter
    · split at h
      · split at h
        · simp at h
        · split at h
          · simp at h
          · rename_i inner hinner
            have hshorter := shorter_of_readChain hinner
            have hclose := shorter_of_closeGroup h
            omega
      · split at h
        · simp only [Except.ok.injEq] at h
          subst h
          exact Nat.lt_succ_self _
        · simp at h

-- An operand with at most so many unary operators and parentheses around any part of it.
def operand : Nat → Reader
  | 0 => ⟨readOperand none, shorter_of_readOperand⟩
  | room + 1 => ⟨readOperand (some (operand room)), shorter_of_readOperand⟩

-- The limit on unary operators and parentheses around any part of an expression.
def maxNesting : Nat := 128

-- Reads an expression that is as long as possible.
def read (tokens : List Token) : Except Fault Front :=
  readChain (operand maxNesting) tokens

end Lox.Expr
