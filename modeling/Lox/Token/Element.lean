import Lox.Token.Basic

namespace Lox

open Lox.Number

-- What can stand at the front of a source.
inductive Element where
  | blank
  | comment
  | token (data : TokenData)
  -- a quote without another one behind it
  | unterminated
  -- a character with which nothing begins
  | unexpected (c : Char)

namespace Element

def isBlank (c : Char) : Bool :=
  c = ' ' || c = '\r' || c = '\t' || c = '\n'

def isWordStart (c : Char) : Bool := c.isAlpha || c = '_'

def isWordPart (c : Char) : Bool := isWordStart c || c.isDigit

-- A string reaches to the next quote. Everything up to there belongs to it, newlines too.
def ofString (text : List Char) : Element × Nat :=
  let inner := text.takeWhile (· ≠ '"')
  if inner.length < text.length then (token (.str (String.ofList inner)), inner.length + 1)
  else (unterminated, inner.length)

-- The digits behind a point, if the text goes on with a point and at least one digit. A point
-- without a digit is a token of its own.
def fraction (text : List Char) : List Char :=
  match text with
  | '.' :: digits => digits.takeWhile Char.isDigit
  | _ => []

def ofNumber (digit : Char) (text : List Char) : Element × Nat :=
  let whole := text.takeWhile Char.isDigit
  let places := fraction (text.drop whole.length)
  let value := (Decimal.ofDigits (digit :: whole) places).toBinary64
  (token (.number value), whole.length + if places.isEmpty then 0 else places.length + 1)

-- A word is a keyword only as a whole.
def ofWord (letter : Char) (text : List Char) : Element × Nat :=
  let more := text.takeWhile isWordPart
  let data :=
    match Keyword.ofText? (String.ofList (letter :: more)) with
    | some keyword => TokenData.keyword keyword
    | none => .identifier
  (token data, more.length)

-- A symbol is joined with an equals sign behind it wherever the two make another symbol.
def ofSymbol (s : Symbol) (text : List Char) : Element × Nat :=
  match text.head?, s.withEqual? with
  | some '=', some joined => (token (.symbol joined), 1)
  | _, _ => (token (.symbol s), 0)

-- A comment ends in front of the newline.
def ofComment (text : List Char) : Element × Nat :=
  (comment, (text.takeWhile (· ≠ '\n')).length)

-- The element that begins with a character and goes on in the text behind it, with the number
-- of characters that it takes from there. It always takes as many as it can.
def front (c : Char) (text : List Char) : Element × Nat :=
  if isBlank c then (blank, 0)
  else if c = '"' then ofString text
  else if c.isDigit then ofNumber c text
  else if isWordStart c then ofWord c text
  else if c = '/' ∧ text.head? = some '/' then ofComment text
  else
    match Symbol.ofChar? c with
    | some s => ofSymbol s text
    | none => (unexpected c, 0)

end Element

end Lox
