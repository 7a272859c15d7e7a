import Lox.Text.Position

namespace Lox.Text

-- The stretch of a text between two of its places.
structure Span where
  start : Position
  stop : Position

namespace Span

instance : BEq Span where
  beq a b := a.start == b.start && a.stop == b.stop

-- Both places have to belong to the same text, and the first may not lie behind the second.
def between? (start stop : Position) : Option Span :=
  if start.source = stop.source ∧ start.offset ≤ stop.offset then some ⟨start, stop⟩ else none

def emptyAt (p : Position) : Span := ⟨p, p⟩

-- All of a text.
def whole (source : String) : Span :=
  let start := Position.start source
  ⟨start, start.readRest.2⟩

def lexeme (s : Span) : String :=
  String.ofList (takeBytes (s.stop.offset - s.start.offset) s.start.rest)

-- The line on which the stretch ends.
def endLine (s : Span) : Nat := s.stop.line

end Span

end Lox.Text
