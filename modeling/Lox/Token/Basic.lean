import Lox.Number.Shortest
import Lox.Text.Span
import Lox.Token.Keyword
import Lox.Token.Symbol

namespace Lox

open Lox.Number Lox.Text

-- What sort of token it is, without the value that strings and numbers carry.
inductive Kind where
  | symbol (symbol : Symbol)
  | keyword (keyword : Keyword)
  | identifier
  | str
  | number
  | eof
  deriving DecidableEq

namespace Kind

def name : Kind → String
  | symbol s => s.name
  | keyword k => k.name
  | identifier => "Identifier"
  | str => "Str"
  | number => "Number"
  | eof => "Eof"

def all : List Kind :=
  Symbol.all.map symbol ++ [identifier, str, number] ++ Keyword.all.map keyword ++ [eof]

end Kind

-- A value that is written down in a source.
inductive Literal where
  | number (value : Binary64)
  | str (text : String)
  | bool (value : Bool)
  | nil

namespace Literal

def beq : Literal → Literal → Bool
  | number x, number y => x == y
  | str x, str y => x == y
  | bool x, bool y => x == y
  | nil, nil => true
  | _, _ => false

instance : BEq Literal := ⟨beq⟩

-- A string stands for itself, without its quotes.
def text : Literal → String
  | number value => value.text
  | str text => text
  | bool value => if value then "true" else "false"
  | nil => "nil"

end Literal

-- The meaning of a token. An identifier has only its place.
inductive TokenData where
  | symbol (symbol : Symbol)
  | keyword (keyword : Keyword)
  | identifier
  | str (text : String)
  | number (value : Binary64)
  | eof

namespace TokenData

def kind : TokenData → Kind
  | symbol s => .symbol s
  | keyword k => .keyword k
  | identifier => .identifier
  | str _ => .str
  | number _ => .number
  | eof => .eof

-- The value of a string or a number.
def payload? : TokenData → Option Literal
  | str text => some (.str text)
  | number value => some (.number value)
  | _ => none

instance : BEq TokenData where
  beq a b := a.kind = b.kind && a.payload? == b.payload?

-- The literal expression that a token makes on its own.
def literal? : TokenData → Option Literal
  | keyword .falseKw => some (.bool false)
  | keyword .trueKw => some (.bool true)
  | keyword .nilKw => some .nil
  | data => data.payload?

def isEof : TokenData → Bool
  | eof => true
  | _ => false

end TokenData

-- A token is a meaning at a stretch of a source.
structure Token where
  data : TokenData
  span : Span

namespace Token

instance : BEq Token where
  beq a b := a.data == b.data && a.span == b.span

def kind (t : Token) : Kind := t.data.kind

def lexeme (t : Token) : String := t.span.lexeme

-- The line on which the token ends.
def line (t : Token) : Nat := t.span.endLine

def isEof (t : Token) : Bool := t.data.isEof

-- The end of input, seen from a place.
def eofAt (p : Position) : Token := ⟨.eof, .emptyAt p⟩

-- A token that makes up a source of its own.
def ofLexeme (data : TokenData) (lexeme : String) : Token := ⟨data, .whole lexeme⟩

end Token

end Lox
