import Lox.Text.Extender
import Lox.Text.Hidden
import Lox.Text.Ignorable

namespace Lox.Text

def hexDigits (n : Nat) : String :=
  String.ofList (Nat.toDigits 16 n)

-- The two halfwidth sound marks of Japanese. They extend the character in front of them, but
-- beside it, with a place of their own.
def isSoundMark (c : Char) : Bool := c = '\uFF9E' || c = '\uFF9F'

-- Whether a character between quotes would be seen as what it is.
def isPlain (c : Char) : Bool :=
  !isHidden c && !isIgnorable c && (!isExtender c || isSoundMark c)

-- How a character is written between double quotes. One that is not plain is given by its code.
def escape (c : Char) : String :=
  match c with
  | '"' => "\\\""
  | '\\' => "\\\\"
  | '\n' => "\\n"
  | '\t' => "\\t"
  | '\r' => "\\r"
  | '\x00' => "\\0"
  | c => if isPlain c then c.toString else "\\u\x7b" ++ hexDigits c.toNat ++ "\x7d"

-- A text between double quotes, on one line.
def quoted (text : String) : String :=
  "\"" ++ String.join (text.toList.map escape) ++ "\""

end Lox.Text
