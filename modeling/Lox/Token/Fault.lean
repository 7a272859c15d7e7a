import Lox.Diagnostic

namespace Lox

inductive ScanCause where
  | unexpectedCharacter (c : Char)
  | unterminatedString
  deriving DecidableEq

-- A part of a source that makes no token, and the line on which this came out. For a string
-- that nothing closes it is the last line of the source.
structure ScanFault where
  cause : ScanCause
  line : Nat
  deriving DecidableEq

namespace ScanCause

def message : ScanCause → String
  | unexpectedCharacter _ => "Unexpected character."
  | unterminatedString => "Unterminated string."

end ScanCause

namespace ScanFault

def diagnostic (fault : ScanFault) : Diagnostic :=
  ⟨fault.line, "", fault.cause.message⟩

-- What a fault says on its own.
def text (fault : ScanFault) : String :=
  "[line " ++ toString fault.line ++ "] Error: " ++ fault.cause.message

end ScanFault

end Lox
