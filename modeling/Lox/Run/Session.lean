import Lox.Run.Transcript

namespace Lox

open Lox.Text

namespace Session

-- What is shown before every read, the one that finds the end of input included.
def invitation : Transcript := ⟨"> ", "", 0⟩

-- What a line leads to. A line of white space alone is passed over, and a source at fault does
-- not end the session. Only a line that is no text does.
def respond (listing : Bool) (line : Bytes) : Except ReadFault Transcript :=
  match decode? line with
  | none => .error .notText
  | some text => .ok (if isBlankText text then ⟨"", "", 0⟩ else .ofSource listing text)

-- The session on some lines, up to the end of input.
def ofLines (listing : Bool) : List Bytes → Transcript
  | [] => invitation
  | line :: rest =>
    match respond listing line with
    | .error fault => invitation ++ .failed fault
    | .ok answer => invitation ++ answer ++ ofLines listing rest

-- A session reads the whole of its input, line by line.
def ofInput (listing : Bool) (input : Bytes) : Transcript :=
  ofLines listing (lines input)

end Session

end Lox
