namespace Lox

-- A message about a line of a source. It may name what it is about.
structure Diagnostic where
  line : Nat
  subject : String
  message : String
  deriving DecidableEq

namespace Diagnostic

def text (d : Diagnostic) : String :=
  let about := if d.subject = "" then "" else " at " ++ d.subject
  "[line " ++ toString d.line ++ "] Error" ++ about ++ ": " ++ d.message

end Diagnostic

-- The diagnostics of a run, in the order in which they were reported.
structure Log where
  entries : List Diagnostic
  deriving DecidableEq

namespace Log

def empty : Log := ⟨[]⟩

def isEmpty (log : Log) : Bool := log.entries.isEmpty

@[simp] theorem isEmpty_empty : empty.isEmpty = true := rfl

def size (log : Log) : Nat := log.entries.length

def push (log : Log) (d : Diagnostic) : Log := ⟨log.entries ++ [d]⟩

-- Adds a message about a line as a whole.
def report (log : Log) (line : Nat) (message : String) : Log :=
  log.push ⟨line, "", message⟩

def get? (log : Log) (index : Nat) : Option Diagnostic := log.entries[index]?

-- Lets the diagnostic at an index name another subject. Without one there nothing changes.
def setSubject (log : Log) (index : Nat) (subject : String) : Log :=
  ⟨log.entries.modify index fun d => { d with subject }⟩

-- Takes the last diagnostic away.
def pop (log : Log) : Option Diagnostic × Log :=
  (log.entries.getLast?, ⟨log.entries.dropLast⟩)

-- Of equal diagnostics in a row only the first one stays.
def dedup (log : Log) : Log :=
  ⟨go log.entries⟩
where
  go : List Diagnostic → List Diagnostic
    | [] => []
    | d :: rest =>
      match go rest with
      | [] => [d]
      | e :: more => if d = e then d :: more else d :: e :: more

def reverse (log : Log) : Log := ⟨log.entries.reverse⟩

-- Diagnostics of the same line keep their order.
def sortByLine (log : Log) : Log :=
  ⟨log.entries.mergeSort fun a b => a.line ≤ b.line⟩

-- One diagnostic to a line.
def text (log : Log) : String :=
  "\n".intercalate (log.entries.map Diagnostic.text)

end Log

end Lox
