import Lox.Expr.Read

namespace Lox

open Lox.Text

-- Tokens as an expression is read from them: those in front of the end of input, and the token
-- that shows the end.
structure Input where
  body : List Token
  close : Token

namespace Input

-- Without a token for the end of input there is an empty one behind the last token.
def missingEof (tokens : List Token) : Token :=
  match tokens.getLast? with
  | some last => .eofAt last.span.stop
  | none => .eofAt (.start "")

-- Nothing behind the first end of input counts.
def ofTokens (tokens : List Token) : Input where
  body := tokens.takeWhile fun t => !t.isEof
  close := (tokens.find? Token.isEof).getD (missingEof tokens)

def error (input : Input) (fault : Expr.Fault) : ParseError :=
  ⟨fault.cause, fault.rest.headD input.close⟩

end Input

-- The expression at the front of the tokens.
def parse (tokens : List Token) : Except ParseError Expr :=
  let input := Input.ofTokens tokens
  match Expr.read input.body with
  | .error fault => .error (input.error fault)
  | .ok front => .ok front.expr

-- The expression that the tokens make all together.
def parseComplete (tokens : List Token) : Except ParseError Expr :=
  let input := Input.ofTokens tokens
  match Expr.read input.body with
  | .error fault => .error (input.error fault)
  | .ok front =>
    if front.rest.isEmpty then .ok front.expr
    else .error (input.error ⟨.expectedEof, front.rest⟩)

end Lox
