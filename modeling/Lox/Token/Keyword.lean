namespace Lox

-- The reserved words.
inductive Keyword where
  | andKw | classKw | elseKw | falseKw | forKw | funKw | ifKw | nilKw
  | orKw | printKw | returnKw | superKw | thisKw | trueKw | varKw | whileKw
  deriving DecidableEq

namespace Keyword

def text : Keyword → String
  | andKw => "and" | classKw => "class" | elseKw => "else" | falseKw => "false"
  | forKw => "for" | funKw => "fun" | ifKw => "if" | nilKw => "nil"
  | orKw => "or" | printKw => "print" | returnKw => "return" | superKw => "super"
  | thisKw => "this" | trueKw => "true" | varKw => "var" | whileKw => "while"

def name : Keyword → String
  | andKw => "And" | classKw => "Class" | elseKw => "Else" | falseKw => "False"
  | forKw => "For" | funKw => "Fun" | ifKw => "If" | nilKw => "Nil"
  | orKw => "Or" | printKw => "Print" | returnKw => "Return" | superKw => "Super"
  | thisKw => "This" | trueKw => "True" | varKw => "Var" | whileKw => "While"

def all : List Keyword :=
  [andKw, classKw, elseKw, falseKw, forKw, funKw, ifKw, nilKw, orKw, printKw, returnKw, superKw,
    thisKw, trueKw, varKw, whileKw]

-- The keyword with this spelling. Letters in the other case make a plain identifier.
def ofText? (word : String) : Option Keyword :=
  all.find? fun keyword => keyword.text = word

theorem ofText?_text (keyword : Keyword) : ofText? keyword.text = some keyword := by
  cases keyword <;> rfl

theorem text_of_ofText? {word : String} {keyword : Keyword} (h : ofText? word = some keyword) :
    keyword.text = word := by
  simpa using List.find?_some h

end Keyword

end Lox
