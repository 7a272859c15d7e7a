import Lox.Expr.Parse
import Lox.Token.Stream

namespace Lox

-- Why a run yields no tree.
inductive RunError where
  | scan (log : Log)
  | parse (error : ParseError)
  | sinkFull

namespace RunError

def diagnostics : RunError → List Diagnostic
  | scan log => log.entries
  | parse error => [error.diagnostic]
  | sinkFull => []

def message : RunError → String
  | scan log => log.text
  | parse error => error.diagnostic.text
  | sinkFull => "sink full"

-- Whether the source is at fault, and not the place where the output goes.
def isDataError : RunError → Bool
  | scan _ | parse _ => true
  | sinkFull => false

end RunError

-- A line of the listing of tokens.
def Token.listing (t : Token) : String :=
  let place := toString t.line ++ " " ++ t.kind.name ++ " '" ++ t.lexeme ++ "'"
  match t.data.payload? with
  | some value => place ++ " " ++ value.text
  | none => place

-- What a run has to write, piece by piece, and how it ends once all of it is written.
structure Report where
  pieces : List String
  outcome : Except RunError Unit

namespace Report

-- All faults of the scan are reported together, and nothing is parsed then. The listing, if it
-- is wanted, shows the tokens in either case.
def ofSource (listing : Bool) (source : String) : Report :=
  let (tokens, log) := scan .empty source
  let lines := if listing then tokens.map fun t => t.listing ++ "\n" else []
  if log.isEmpty then
    match parseComplete tokens with
    | .ok expr => ⟨lines ++ [expr.text ++ "\n"], .ok ()⟩
    | .error e => ⟨lines, .error (.parse e)⟩
  else ⟨lines, .error (.scan log)⟩

def output (r : Report) : String := String.join r.pieces

-- What a user is told about a run that failed.
def complaint (r : Report) : String :=
  match r.outcome with
  | .ok () => ""
  | .error e => e.message ++ "\n"

end Report

end Lox
