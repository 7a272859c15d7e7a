import Lox.Run.Session

namespace Lox

open Lox.Text

-- A command line: a file, or else a session, and whether the tokens are to be listed.
structure Arguments where
  file : Option String
  listing : Bool

namespace Arguments

-- There may be one file, and its name may not be empty.
def withFile? (found : Arguments) (file : String) : Option Arguments :=
  if found.file.isNone ∧ file ≠ "" then some { found with file := some file } else none

-- The flag may be given once.
def withListing? (found : Arguments) : Option Arguments :=
  if found.listing then none else some { found with listing := true }

-- Two dashes alone end the options. A single dash is the name of a file, and whatever else
-- begins with a dash has to be the flag.
def extend? (found : Arguments) : List String → Option Arguments
  | [] => some found
  | arg :: rest =>
    if arg = "--" then rest.foldlM withFile? found
    else if arg = "--tokens" then found.withListing?.bind (·.extend? rest)
    else if arg.startsWith "-" ∧ arg ≠ "-" then none
    else (found.withFile? arg).bind (·.extend? rest)

def ofList? (args : List String) : Option Arguments :=
  extend? ⟨none, false⟩ args

end Arguments

namespace Command

-- The exit code of a command line that is not understood.
def usageCode : Nat := 2

-- What a command line leads to, given what its file would yield and the standard input. A
-- command line that is not understood leads to nothing.
def run? (args : List String) (content : String → Except ReadFault Bytes) (input : Bytes) :
    Option Transcript :=
  (Arguments.ofList? args).map fun arguments =>
    match arguments.file with
    | some file => .ofFile arguments.listing (content file)
    | none => Session.ofInput arguments.listing input

end Command

end Lox
