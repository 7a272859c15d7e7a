import Lox.Expr.Basic

namespace Lox

-- How tightly a binary operator binds, from the loosest to the tightest.
inductive Rank where
  | equality
  | comparison
  | term
  | factor
  deriving DecidableEq

namespace Rank

def toNat : Rank → Nat
  | equality => 0
  | comparison => 1
  | term => 2
  | factor => 3

end Rank

-- The rank of a symbol that can stand between two operands.
def Symbol.rank? : Symbol → Option Rank
  | bangEqual | equalEqual => some .equality
  | greater | greaterEqual | less | lessEqual => some .comparison
  | minus | plus => some .term
  | slash | star => some .factor
  | _ => none

-- Whether a symbol can stand in front of a single operand.
def Symbol.isUnary : Symbol → Bool
  | bang | minus => true
  | _ => false

def TokenData.rank? : TokenData → Option Rank
  | symbol s => s.rank?
  | _ => none

def TokenData.isUnary : TokenData → Bool
  | symbol s => s.isUnary
  | _ => false

namespace Expr

-- Continues an expression with an operator and a further operand. The operator takes as its
-- left operand what binds as tightly as itself, or more tightly; what binds more loosely keeps
-- its own left operand and passes the operator on to its right one. So operators of one rank
-- are grouped from the left.
def attach (left : Expr) (rank : Rank) (operator : Token) (operand : Expr) : Expr :=
  match left with
  | binary l o r =>
    match o.data.rank? with
    | some outer =>
      if outer.toNat < rank.toNat then binary l o (r.attach rank operator operand)
      else binary left operator operand
    | none => binary left operator operand
  | left => binary left operator operand

end Expr

end Lox
