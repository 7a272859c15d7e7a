namespace Lox

-- The operators and the punctuation.
inductive Symbol where
  | leftParen | rightParen | leftBrace | rightBrace
  | comma | dot | minus | plus | semicolon | slash | star
  | bang | bangEqual | equal | equalEqual
  | greater | greaterEqual | less | lessEqual
  deriving DecidableEq

namespace Symbol

def text : Symbol → String
  | leftParen => "(" | rightParen => ")" | leftBrace => "\x7b" | rightBrace => "\x7d"
  | comma => "," | dot => "." | minus => "-" | plus => "+" | semicolon => ";"
  | slash => "/" | star => "*"
  | bang => "!" | bangEqual => "!=" | equal => "=" | equalEqual => "=="
  | greater => ">" | greaterEqual => ">=" | less => "<" | lessEqual => "<="

def name : Symbol → String
  | leftParen => "LeftParen" | rightParen => "RightParen"
  | leftBrace => "LeftBrace" | rightBrace => "RightBrace"
  | comma => "Comma" | dot => "Dot" | minus => "Minus" | plus => "Plus"
  | semicolon => "Semicolon" | slash => "Slash" | star => "Star"
  | bang => "Bang" | bangEqual => "BangEqual" | equal => "Equal" | equalEqual => "EqualEqual"
  | greater => "Greater" | greaterEqual => "GreaterEqual" | less => "Less"
  | lessEqual => "LessEqual"

def all : List Symbol :=
  [leftParen, rightParen, leftBrace, rightBrace, comma, dot, minus, plus, semicolon, slash, star,
    bang, bangEqual, equal, equalEqual, greater, greaterEqual, less, lessEqual]

-- The symbol that a single character stands for on its own.
def ofChar? : Char → Option Symbol
  | '(' => some leftParen
  | ')' => some rightParen
  | '\x7b' => some leftBrace
  | '\x7d' => some rightBrace
  | ',' => some comma
  | '.' => some dot
  | '-' => some minus
  | '+' => some plus
  | ';' => some semicolon
  | '/' => some slash
  | '*' => some star
  | '!' => some bang
  | '=' => some equal
  | '>' => some greater
  | '<' => some less
  | _ => none

-- The symbol that an equals sign behind this one makes out of the two.
def withEqual? : Symbol → Option Symbol
  | bang => some bangEqual
  | equal => some equalEqual
  | greater => some greaterEqual
  | less => some lessEqual
  | _ => none

theorem text_of_ofChar? {c : Char} {s : Symbol} (h : ofChar? c = some s) :
    s.text = String.ofList [c] := by
  unfold ofChar? at h
  split at h <;> cases h <;> rfl

theorem text_of_withEqual? {s joined : Symbol} (h : s.withEqual? = some joined) :
    joined.text = s.text ++ "=" := by
  cases s <;> cases h <;> rfl

end Symbol

end Lox
