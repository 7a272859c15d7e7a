import Lox.Number.Decimal

namespace Lox.Number

-- The values that are read as one given positive number: those from `low` to `high`, all over
-- the denominator `den`. The bounds themselves belong to them when `closed` holds.
structure Rounding where
  low : Nat
  value : Nat
  high : Nat
  den : Nat
  closed : Bool

namespace Rounding

-- The bounds lie half-way to the neighbours of a number, and a half goes to the even one. The
-- lower neighbour of a power of two is nearer by half, unless no smaller scale exists.
def ofBinary64 (x : Binary64) : Rounding :=
  let m := x.significand
  let factor := Nat.pow 2 (x.scale - 1076)
  let below := if m = Nat.pow 2 52 ∧ 0 < x.scale then 1 else 2
  { low := (4 * m - below) * factor
    value := 4 * m * factor
    high := (4 * m + 2) * factor
    den := Nat.pow 2 (1076 - x.scale)
    closed := m % 2 = 0 }

-- Whether the quotient `num / den` is read as the number, for a denominator `den` that is
-- `factor` times smaller than that of the bounds.
def holds (r : Rounding) (factor num : Nat) : Bool :=
  if r.closed then r.low * factor ≤ num ∧ num ≤ r.high * factor
  else r.low * factor < num ∧ num < r.high * factor

-- Of the multiples of `step / factor` the one nearest to the value, if it is read as the
-- number. Of two at the same distance it is the upper one.
def pick? (r : Rounding) (step factor : Nat) : Option Nat :=
  let below := r.value * factor / step
  let above := below + 1
  match r.holds factor (below * step), r.holds factor (above * step) with
  | true, true =>
    if 2 * (r.value * factor) < (below + above) * step then some below else some above
  | true, false => some below
  | false, true => some above
  | false, false => none

-- Looks for a decimal with the given number of places, then for one with more of them.
def finer (r : Rounding) (places : Nat) : Nat → Decimal
  | 0 => ⟨r.value * Nat.pow 10 places / r.den, places⟩
  | fuel + 1 =>
    match r.pick? r.den (Nat.pow 10 places) with
    | some c => ⟨c, places⟩
    | none => r.finer (places + 1) fuel

-- Looks for a multiple of a power of ten, from the given exponent downwards.
def coarser (r : Rounding) : Nat → Option Decimal
  | 0 => (r.pick? r.den 1).map fun c => ⟨c, 0⟩
  | exponent + 1 =>
    match r.pick? (r.den * Nat.pow 10 (exponent + 1)) 1 with
    | some c => some ⟨c * Nat.pow 10 (exponent + 1), 0⟩
    | none => r.coarser exponent

-- The coarsest decimal grid with a point that is read as the number gives the fewest digits.
-- With 1076 places the value itself is a point of the grid.
def shortest (r : Rounding) : Decimal :=
  match r.coarser (Nat.toDigits 10 (r.high / r.den)).length with
  | some d => d
  | none => r.finer 1 1076

end Rounding

namespace Binary64

def shortestDecimal (x : Binary64) : Decimal :=
  if x.magnitude = 0 then ⟨0, 0⟩ else (Rounding.ofBinary64 x).shortest

-- The shortest decimal that is read as the number, without an exponent. What is no number has
-- no sign either.
def text (x : Binary64) : String :=
  if x.isNaN then "NaN"
  else
    let digits := if x.isInfinite then ['i', 'n', 'f'] else x.shortestDecimal.text
    String.ofList (if x.isNegative then '-' :: digits else digits)

end Binary64

end Lox.Number
