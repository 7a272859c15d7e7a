import Lox.Number.Binary64

namespace Lox.Number

-- The nearest whole number to a quotient. A half goes to the even neighbour.
def roundHalfEven (num den : Nat) : Nat :=
  let quotient := num / den
  let remainder := num % den
  if 2 * remainder < den then quotient
  else if den < 2 * remainder then quotient + 1
  else quotient + quotient % 2

namespace Binary64

-- The number nearest to `num / den` units of the least positive number. Two to the power of
-- `drop` is the distance of the neighbours there: the quotient keeps 53 of its binary digits,
-- or all of them if it has fewer. A significand that is rounded up to the next power of two
-- carries into the exponent, and what is too large for any exponent is infinite.
def nearest (num den : Nat) : Binary64 :=
  let drop := Nat.log2 (num / den) - 52
  let magnitude := drop * Nat.pow 2 52 + roundHalfEven num (den * Nat.pow 2 drop)
  ⟨UInt64.ofNat (min magnitude infiniteMagnitude)⟩

end Binary64

-- A decimal without a sign: its digits, read as one whole number, and how many of them stand
-- behind the point.
structure Decimal where
  coefficient : Nat
  places : Nat
  deriving DecidableEq

namespace Decimal

def ofDigits (whole fraction : List Char) : Decimal :=
  ⟨Nat.ofDigitChars 10 (whole ++ fraction) 0, fraction.length⟩

def toBinary64 (d : Decimal) : Binary64 :=
  .nearest (d.coefficient * Nat.pow 2 1074) (Nat.pow 10 d.places)

-- The decimal digits of a number, with zeros in front up to a width.
def paddedDigits (width n : Nat) : List Char :=
  let digits := Nat.toDigits 10 n
  List.replicate (width - digits.length) '0' ++ digits

-- All digits are written out, and there is a point only in front of digits.
def text (d : Decimal) : List Char :=
  let whole := Nat.toDigits 10 (d.coefficient / Nat.pow 10 d.places)
  if d.places = 0 then whole
  else whole ++ '.' :: paddedDigits d.places (d.coefficient % Nat.pow 10 d.places)

end Decimal

end Lox.Number
