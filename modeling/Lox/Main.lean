import Lox.Command

namespace Lox.Main

open Lox.Text

def readFault (e : IO.Error) : ReadFault :=
  match e with
  | .noFileOrDirectory _ _ _ => .missingFile
  | .inappropriateType _ _ _ => .directory
  | .permissionDenied _ code details => .system details code.toNat
  | .otherError code details => .system details code.toNat
  | e => .system e.toString 0

def readFile (file : String) : IO (Except ReadFault Bytes) := do
  try
    let content ← IO.FS.readBinFile file
    return .ok content.toList
  catch e => return .error (readFault e)

-- The bytes up to and including the next newline. There are none at the end of input.
partial def readLine (input : IO.FS.Stream) (line : ByteArray) : IO ByteArray := do
  let byte ← input.read 1
  let line := line ++ byte
  if byte.isEmpty || byte[0]? = some 10 then return line else readLine input line

def emit (transcript : Transcript) : IO Unit := do
  let out ← IO.getStdout
  out.putStr transcript.out
  out.flush
  (← IO.getStderr).putStr transcript.err

-- Answers every line before it reads the next one.
partial def converse (listing : Bool) : IO Nat := do
  emit Session.invitation
  let line ← readLine (← IO.getStdin) .empty
  if line.isEmpty then return Session.invitation.code
  match Session.respond listing line.toList with
  | .error fault =>
    emit (.failed fault)
    return Transcript.failureCode
  | .ok answer =>
    emit answer
    converse listing

end Lox.Main

open Lox Lox.Main

def main (args : List String) : IO UInt32 := do
  match Arguments.ofList? args with
  | none =>
    (← IO.getStderr).putStrLn "usage: [FILE] [--tokens]"
    return Command.usageCode.toUInt32
  | some ⟨none, listing⟩ => return (← converse listing).toUInt32
  | some ⟨some file, listing⟩ =>
    let transcript := Transcript.ofFile listing (← readFile file)
    emit transcript
    return transcript.code.toUInt32
