import Lox.Token.Element
import Lox.Token.Fault

namespace Lox

open Lox.Text

-- What a source yields to its reader, one after the other.
inductive Item where
  | token (token : Token)
  | fault (fault : ScanFault)

namespace Item

def token? : Item → Option Token
  | token t => some t
  | fault _ => none

def fault? : Item → Option ScanFault
  | token _ => none
  | fault f => some f

end Item

-- What an element between two places of a source yields. Blanks and comments yield nothing.
def Element.item? (start stop : Position) : Element → Option Item
  | blank | comment => none
  | token data => some (.token ⟨data, ⟨start, stop⟩⟩)
  | unterminated => some (.fault ⟨.unterminatedString, stop.line⟩)
  | unexpected c => some (.fault ⟨.unexpectedCharacter c, stop.line⟩)

-- The items of a source that are still to come. The end of input is the last one of them.
inductive Stream where
  | reading (place : Position)
  | finished

namespace Stream

def ofSource (source : String) : Stream := reading (.start source)

-- How many characters are unread, and one more for the end of input.
def size : Stream → Nat
  | finished => 0
  | reading p => p.rest.length + 1

theorem size_skip {p : Position} {c : Char} {text : List Char} (h : p.rest = c :: text)
    (more : Nat) : (reading (p.skip (more + 1))).size < (reading p).size := by
  simp only [size, Position.rest_skip, h, List.drop_succ_cons, List.length_drop, List.length_cons]
  omega

-- Reads elements until one yields an item.
def next? : Stream → Option (Item × Stream)
  | finished => none
  | reading p =>
    match _h : p.rest with
    | [] => some (.token (.eofAt p), finished)
    | c :: text =>
      let (element, more) := Element.front c text
      let stop := p.skip (more + 1)
      match element.item? p stop with
      | some item => some (item, reading stop)
      | none => next? (reading stop)
termination_by s => s.size
decreasing_by exact size_skip _h _

theorem size_of_next? {s t : Stream} {item : Item} (h : s.next? = some (item, t)) :
    t.size < s.size := by
  fun_induction next? s with
  | case1 => simp at h
  | case2 p hrest =>
    simp only [Option.some.injEq, Prod.mk.injEq] at h
    simp [← h.2, size]
  | case3 p c text hrest element more hfront stop found hitem =>
    simp only [Option.some.injEq, Prod.mk.injEq] at h
    exact h.2 ▸ size_skip hrest more
  | case4 p c text hrest element more hfront stop hitem ih =>
    exact Nat.lt_trans (ih h) (size_skip hrest more)

-- Everything that is still to come.
def items (s : Stream) : List Item :=
  match _h : s.next? with
  | none => []
  | some (item, rest) => item :: rest.items
termination_by s.size
decreasing_by exact size_of_next? _h

-- Leaves out some items.
def skip : Nat → Stream → Stream
  | 0, s => s
  | count + 1, s =>
    match s.next? with
    | none => finished
    | some (_, rest) => skip count rest

-- Leaves out some items and reads the one behind them. Without one everything is read.
def nth? (count : Nat) (s : Stream) : Option (Item × Stream) :=
  (s.skip count).next?

-- Reads to the end. Tokens are kept, and every fault is added to the log.
def collect (s : Stream) (log : Log) : List Token × Log :=
  match _h : s.next? with
  | none => ([], log)
  | some (.token t, rest) =>
    let (tokens, log) := rest.collect log
    (t :: tokens, log)
  | some (.fault f, rest) => rest.collect (log.push f.diagnostic)
termination_by s.size
decreasing_by all_goals exact size_of_next? _h

end Stream

-- All tokens of a source. The faults between them go to the log, behind what it holds.
def scan (log : Log) (source : String) : List Token × Log :=
  (Stream.ofSource source).collect log

end Lox
