import Lox.Run.Report
import Lox.Text.Blank
import Lox.Text.Utf8

namespace Lox

open Lox.Text

-- Why a file or the standard input cannot be read.
inductive ReadFault where
  | system (reason : String) (code : Nat)
  | notText

namespace ReadFault

def missingFile : ReadFault := system "No such file or directory" 2

def directory : ReadFault := system "Is a directory" 21

def message : ReadFault → String
  | system reason code => reason ++ " (os error " ++ toString code ++ ")"
  | notText => "stream did not contain valid UTF-8"

end ReadFault

-- What a command writes to the standard output and the standard error, and its exit code.
structure Transcript where
  out : String
  err : String
  code : Nat

namespace Transcript

-- The exit codes of a source at fault, and of a failure to read one.
def dataErrorCode : Nat := 65
def failureCode : Nat := 1

def failed (fault : ReadFault) : Transcript :=
  ⟨"", "Error: " ++ fault.message ++ "\n", failureCode⟩

-- Runs a source once.
def ofSource (listing : Bool) (source : String) : Transcript :=
  let report := Report.ofSource listing source
  ⟨report.output, report.complaint,
    match report.outcome with
    | .ok () => 0
    | .error _ => dataErrorCode⟩

-- Runs what is in a file.
def ofFile (listing : Bool) (content : Except ReadFault Bytes) : Transcript :=
  match content with
  | .error fault => failed fault
  | .ok bytes =>
    match decode? bytes with
    | none => failed .notText
    | some source => ofSource listing source

-- One transcript after another, which decides the exit code.
def append (first second : Transcript) : Transcript :=
  ⟨first.out ++ second.out, first.err ++ second.err, second.code⟩

instance : Append Transcript := ⟨append⟩

end Transcript

end Lox
