import Lox.Run.Report

namespace Lox

-- A place for output that takes so many more bytes, or any number of them.
structure Sink where
  room : Option Nat
  held : Array UInt8

namespace Sink

def empty (room : Option Nat) : Sink := ⟨room, #[]⟩

-- Takes as much of a text as there is room for, and says whether that was all of it.
def write (sink : Sink) (text : String) : Sink × Bool :=
  let bytes := text.toUTF8.data
  match sink.room with
  | none => (⟨none, sink.held ++ bytes⟩, true)
  | some room =>
    if bytes.size ≤ room then (⟨some (room - bytes.size), sink.held ++ bytes⟩, true)
    else (⟨some 0, sink.held ++ bytes.take room⟩, false)

-- Writes one text after the other, up to the first one that does not fit.
def writeAll (sink : Sink) : List String → Sink × Bool
  | [] => (sink, true)
  | text :: texts =>
    match sink.write text with
    | (sink, true) => sink.writeAll texts
    | (sink, false) => (sink, false)

end Sink

-- Scans and parses a source and writes the tree, behind a listing of the tokens if one is
-- wanted. Whatever the source is like, a sink that does not take all of it ends the run.
def run (listing : Bool) (source : String) (sink : Sink) : Sink × Except RunError Unit :=
  let report := Report.ofSource listing source
  match sink.writeAll report.pieces with
  | (sink, true) => (sink, report.outcome)
  | (sink, false) => (sink, .error .sinkFull)

end Lox
