namespace Lox.Number

-- A double precision number, given by its 64 bits: a sign, eleven bits of exponent and 52 bits
-- of fraction.
structure Binary64 where
  bits : UInt64

namespace Binary64

def isNegative (x : Binary64) : Bool := Nat.pow 2 63 ≤ x.bits.toNat

-- The bits below the sign. They grow with the absolute value.
def magnitude (x : Binary64) : Nat := x.bits.toNat % Nat.pow 2 63

-- The magnitude of the infinities. Every larger one stands for no number at all.
def infiniteMagnitude : Nat := 2047 * Nat.pow 2 52

def isNaN (x : Binary64) : Bool := infiniteMagnitude < x.magnitude

def isInfinite (x : Binary64) : Bool := x.magnitude = infiniteMagnitude

def isFinite (x : Binary64) : Bool := x.magnitude < infiniteMagnitude

-- The absolute value of a finite number is its significand times two to its scale, in units of
-- the least positive number, which is two to the power of minus 1074.
def significand (x : Binary64) : Nat :=
  if x.magnitude < Nat.pow 2 52 then x.magnitude else Nat.pow 2 52 + x.magnitude % Nat.pow 2 52

def scale (x : Binary64) : Nat := x.magnitude / Nat.pow 2 52 - 1

-- Equality of numbers and not of bits: the two zeros are equal, and what is no number equals
-- nothing.
instance : BEq Binary64 where
  beq x y :=
    !x.isNaN && !y.isNaN && (x.bits == y.bits || (x.magnitude == 0 && y.magnitude == 0))

end Binary64

end Lox.Number
