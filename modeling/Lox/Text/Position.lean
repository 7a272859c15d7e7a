import Lox.Text.ByteLength

namespace Lox.Text

-- A place in a text: the whole text, the characters still to be read, the number of bytes
-- already read, and the line of the next character. Lines count from one.
structure Position where
  source : String
  rest : List Char
  offset : Nat
  line : Nat

namespace Position

def start (source : String) : Position :=
  ⟨source, source.toList, 0, 1⟩

-- Two places are the same when the same text has the same characters left. The offset and the
-- line follow from these for every place that is reached from a start.
instance : BEq Position where
  beq a b := a.source == b.source && a.rest == b.rest

def peek? (p : Position) : Option Char := p.rest.head?

-- The character after the next one.
def peekSecond? (p : Position) : Option Char := p.rest[1]?

-- Moves over one character, and stays at the end. Only a newline leads to the next line.
def step (p : Position) : Position :=
  match p.rest with
  | [] => p
  | c :: rest =>
    { p with
      rest
      offset := p.offset + c.utf8Size
      line := if c = '\n' then p.line + 1 else p.line }

-- Moves over some characters, or to the end if there are not so many.
def skip : Nat → Position → Position
  | 0, p => p
  | count + 1, p => if p.rest.isEmpty then p else skip count p.step

-- Reads the next character.
def next (p : Position) : Option Char × Position :=
  (p.peek?, p.step)

-- Skips some characters and reads the one behind them. A text that is too short is used up.
def nth (count : Nat) (p : Position) : Option Char × Position :=
  (skip count p).next

-- Reads the next character only if it is the expected one, and says whether it was.
def nextIf (expected : Char) (p : Position) : Bool × Position :=
  if p.peek? = some expected then (true, p.step) else (false, p)

-- Stops in front of the first character that fails the test.
def skipWhile (test : Char → Bool) (p : Position) : Position :=
  skip (p.rest.takeWhile test).length p

-- Moves to the end and gives the text on the way.
def readRest (p : Position) : String × Position :=
  (String.ofList p.rest, skip p.rest.length p)

-- The text from one place up to a later one. There is none between places of different texts,
-- nor from a later place to an earlier one.
def slice? (a b : Position) : Option String :=
  if a.source = b.source ∧ a.offset ≤ b.offset then
    some (String.ofList (takeBytes (b.offset - a.offset) a.rest))
  else
    none

-- The text itself stays the same.
theorem source_step (p : Position) : p.step.source = p.source := by
  unfold step
  split <;> rfl

theorem rest_step (p : Position) : p.step.rest = p.rest.tail := by
  unfold step
  split <;> simp_all

theorem skip_end {p : Position} (h : p.rest = []) (count : Nat) : skip count p = p := by
  cases count <;> simp [skip, h]

-- The end stops every further step, so a skip is no more than its steps.
theorem skip_succ (count : Nat) (p : Position) : skip (count + 1) p = skip count p.step := by
  by_cases h : p.rest = []
  · have hstep : p.step = p := by simp [step, h]
    rw [hstep, skip_end h, skip_end h]
  · simp [skip, h]

theorem rest_skip (count : Nat) (p : Position) : (skip count p).rest = p.rest.drop count := by
  induction count generalizing p with
  | zero => simp [skip]
  | succ count ih => simp [skip_succ, ih, rest_step]

end Position

end Lox.Text
