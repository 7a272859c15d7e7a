import Lox.Diagnostic
import Lox.Token.Basic

namespace Lox

inductive ParseCause where
  | missingRightParen
  | expectedExpression
  | expectedEof
  | nestingTooDeep
  deriving DecidableEq

def ParseCause.message : ParseCause → String
  | missingRightParen => "Expect ')' after expression."
  | expectedExpression => "Expect expression."
  | expectedEof => "Expect end of expression."
  | nestingTooDeep => "Expression nests too deeply."

-- Why tokens are no expression, and the first token that shows it.
structure ParseError where
  cause : ParseCause
  token : Token

namespace ParseError

instance : BEq ParseError where
  beq a b := a.cause = b.cause && a.token == b.token

-- The end of input has no text of its own to be shown.
def diagnostic (e : ParseError) : Diagnostic :=
  ⟨e.token.line, if e.token.isEof then "end" else "'" ++ e.token.lexeme ++ "'", e.cause.message⟩

end ParseError

end Lox
