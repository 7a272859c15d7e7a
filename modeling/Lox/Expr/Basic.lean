import Lox.Token.Basic

namespace Lox

inductive Expr where
  | literal (value : Literal)
  | grouping (inner : Expr)
  | unary (operator : Token) (operand : Expr)
  | binary (left : Expr) (operator : Token) (right : Expr)

namespace Expr

-- Replaces each kind of node by a function of what its children become.
def fold {α : Type} (literal : Literal → α) (grouping : α → α) (unary : Token → α → α)
    (binary : α → Token → α → α) : Expr → α
  | .literal value => literal value
  | .grouping inner => grouping (inner.fold literal grouping unary binary)
  | .unary operator operand => unary operator (operand.fold literal grouping unary binary)
  | .binary left operator right =>
    binary (left.fold literal grouping unary binary) operator
      (right.fold literal grouping unary binary)

-- Equal in structure, with equal operators and literals.
def beq : Expr → Expr → Bool
  | literal x, literal y => x == y
  | grouping x, grouping y => beq x y
  | unary p x, unary q y => p == q && beq x y
  | binary w p x, binary y q z => beq w y && p == q && beq x z
  | _, _ => false

instance : BEq Expr := ⟨beq⟩

-- A head and its arguments in parentheses.
def parenthesized (head : String) (arguments : List String) : String :=
  "(" ++ " ".intercalate (head :: arguments) ++ ")"

-- The text in which every operator stands in front of its operands.
def text : Expr → String :=
  fold Literal.text
    (fun inner => parenthesized "group" [inner])
    (fun operator operand => parenthesized operator.lexeme [operand])
    (fun left operator right => parenthesized operator.lexeme [left, right])

-- The number of nodes on a longest path from the root.
def height : Expr → Nat :=
  fold (fun _ => 1) (fun inner => inner + 1) (fun _ operand => operand + 1)
    (fun left _ right => max left right + 1)

end Expr

end Lox
