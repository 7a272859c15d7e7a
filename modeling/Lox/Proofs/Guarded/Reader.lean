import Lox.Proofs.Guarded.Slice
import Lox.Token.Stream

namespace Lox.Guarded

open Lox.Number Lox.Text

-- The reader moves from place to place here, and has nothing but two places to cut a lexeme out of
-- the source. Every condition that this relies on is checked where it is relied on.

-- A token, with the place behind it.
def emit (data : TokenData) (start stop : Position) : Except Abort (Option Item × Position) :=
  (span start stop).map fun span => (some (.token ⟨data, span⟩), stop)

def symbol (s : Symbol) (start current : Position) : Except Abort (Option Item × Position) :=
  match s.withEqual? with
  | some joined =>
    let (found, stop) := current.nextIf '='
    emit (.symbol (if found then joined else s)) start stop
  | none => emit (.symbol s) start current

def slash (start current : Position) : Except Abort (Option Item × Position) :=
  let (found, stop) := current.nextIf '/'
  if found then .ok (none, stop.skipWhile (· ≠ '\n')) else emit (.symbol .slash) start stop

-- The text of a string is its lexeme without a byte on either side.
def string (start current : Position) : Except Abort (Option Item × Position) := do
  let (closed, stop) := (current.skipWhile (· ≠ '"')).nextIf '"'
  if closed then
    let quoted ← lexeme start stop
    let text ← slice quoted.toList 1 (quoted.utf8ByteSize - 1)
    emit (.str (String.ofList text)) start stop
  else
    return (some (.fault ⟨.unterminatedString, stop.line⟩), stop)

def numberEnd (current : Position) : Position :=
  let stop := current.skipWhile Char.isDigit
  if stop.peek? = some '.' ∧ stop.peekSecond?.any Char.isDigit then
    stop.step.skipWhile Char.isDigit
  else
    stop

def number (start current : Position) : Except Abort (Option Item × Position) := do
  let stop := numberEnd current
  let digits ← lexeme start stop
  match decimal? digits.toList with
  | some d => emit (.number d.toBinary64) start stop
  | none => throw .malformed

def word (start current : Position) : Except Abort (Option Item × Position) := do
  let stop := current.skipWhile Element.isWordPart
  let letters ← lexeme start stop
  match Keyword.ofText? letters with
  | some keyword => emit (.keyword keyword) start stop
  | none => emit .identifier start stop

-- What begins with a character that has been read, and the place behind it.
def scanToken (start : Position) (c : Char) (current : Position) :
    Except Abort (Option Item × Position) :=
  match Symbol.ofChar? c with
  | some .slash => slash start current
  | some s => symbol s start current
  | none =>
    if Element.isBlank c then .ok (none, current)
    else if c = '"' then string start current
    else if c.isDigit then number start current
    else if Element.isWordStart c then word start current
    else .ok (some (.fault ⟨.unexpectedCharacter c, current.line⟩), current)

-- One turn of reading: what it yields, if anything, and what is left.
def turn (p : Position) : Except Abort (Option Item × Stream) :=
  match p.next with
  | (none, stop) => .ok (some (.token (.eofAt stop)), .finished)
  | (some c, current) => (scanToken p c current).map fun (item, stop) => (item, .reading stop)

section Progress

variable {start current stop : Position} {item : Option Item}

theorem eq_of_emit {data : TokenData} {place : Position}
    (h : emit data start place = .ok (item, stop)) : stop = place := by
  obtain ⟨span, -, hpair⟩ := exists_of_map h
  exact (Prod.mk.inj hpair).2.symm

-- One place comes behind another one in a text, or is the same.
def Ahead (p q : Position) : Prop := ∃ count, q = p.skip count

theorem ahead_refl (p : Position) : Ahead p p := ⟨0, rfl⟩

theorem Ahead.trans {p q r : Position} (hpq : Ahead p q) (hqr : Ahead q r) :
    Ahead p r := by
  obtain ⟨count, rfl⟩ := hpq
  obtain ⟨more, rfl⟩ := hqr
  exact ⟨count + more, Position.skip_skip more count p⟩

theorem ahead_step (p : Position) : Ahead p p.step := ⟨1, (Position.skip_succ 0 p).symm⟩

theorem ahead_skipWhile (test : Char → Bool) (p : Position) : Ahead p (p.skipWhile test) :=
  ⟨_, rfl⟩

theorem ahead_nextIf {c : Char} {p q : Position} {found : Bool} (h : p.nextIf c = (found, q)) :
    Ahead p q := by
  unfold Position.nextIf at h
  split at h
  · exact (Prod.mk.inj h).2 ▸ ahead_step p
  · exact (Prod.mk.inj h).2 ▸ ahead_refl p

theorem ahead_symbol {s : Symbol} (h : symbol s start current = .ok (item, stop)) :
    Ahead current stop := by
  unfold symbol at h
  split at h
  · split at h
    rename_i hnext
    exact eq_of_emit h ▸ ahead_nextIf hnext
  · exact eq_of_emit h ▸ ahead_refl current

theorem ahead_slash (h : slash start current = .ok (item, stop)) : Ahead current stop := by
  unfold slash at h
  split at h
  rename_i hnext
  split at h
  · cases h
    exact (ahead_nextIf hnext).trans (ahead_skipWhile _ _)
  · exact eq_of_emit h ▸ ahead_nextIf hnext

theorem ahead_string (h : string start current = .ok (item, stop)) : Ahead current stop := by
  unfold string at h
  split at h
  rename_i hnext
  have hahead := (ahead_skipWhile (· ≠ '"') current).trans (ahead_nextIf hnext)
  split at h
  · obtain ⟨quoted, -, h⟩ := exists_of_bind h
    obtain ⟨text, -, h⟩ := exists_of_bind h
    exact eq_of_emit h ▸ hahead
  · cases h
    exact hahead

theorem ahead_numberEnd (current : Position) : Ahead current (numberEnd current) := by
  have hwhole := ahead_skipWhile Char.isDigit current
  unfold numberEnd
  simp only
  split
  · exact (hwhole.trans (ahead_step _)).trans (ahead_skipWhile _ _)
  · exact hwhole

theorem ahead_number (h : number start current = .ok (item, stop)) : Ahead current stop := by
  obtain ⟨digits, -, h⟩ := exists_of_bind h
  split at h
  · exact eq_of_emit h ▸ ahead_numberEnd current
  · cases h

theorem ahead_word (h : word start current = .ok (item, stop)) : Ahead current stop := by
  obtain ⟨letters, -, h⟩ := exists_of_bind h
  split at h <;> exact eq_of_emit h ▸ ahead_skipWhile _ current

theorem ahead_scanToken {c : Char} (h : scanToken start c current = .ok (item, stop)) :
    Ahead current stop := by
  unfold scanToken at h
  split at h
  · exact ahead_slash h
  · exact ahead_symbol h
  · split at h
    · cases h
      exact ahead_refl current
    · split at h
      · exact ahead_string h
      · split at h
        · exact ahead_number h
        · split at h
          · exact ahead_word h
          · cases h
            exact ahead_refl current

-- A turn takes at least one character, and the last one takes the end of input.
theorem size_of_turn {p : Position} {s : Stream} (h : turn p = .ok (item, s)) :
    s.size < (Stream.reading p).size := by
  unfold turn Position.next at h
  cases hrest : p.rest with
  | nil =>
    simp only [Position.peek?, hrest, List.head?_nil] at h
    cases h
    exact Nat.succ_pos _
  | cons c text =>
    simp only [Position.peek?, hrest, List.head?_cons] at h
    obtain ⟨⟨_, stop⟩, hscan, hpair⟩ := exists_of_map h
    cases hpair
    obtain ⟨count, rfl⟩ := ahead_scanToken hscan
    rw [← Position.skip_succ]
    exact Stream.size_skip hrest count

end Progress

-- Takes turns until one yields something.
def next : Stream → Except Abort (Option (Item × Stream))
  | .finished => .ok none
  | .reading p =>
    match _h : turn p with
    | .error reason => .error reason
    | .ok (some item, rest) => .ok (some (item, rest))
    | .ok (none, rest) => next rest
termination_by s => s.size
decreasing_by exact size_of_turn _h

theorem size_of_next {s t : Stream} {item : Item} (h : next s = .ok (some (item, t))) :
    t.size < s.size := by
  fun_induction next s with
  | case1 => cases h
  | case2 p reason hturn => cases h
  | case3 p found rest hturn =>
    cases h
    exact size_of_turn hturn
  | case4 p rest hturn ih => exact Nat.lt_trans (ih h) (size_of_turn hturn)

-- Reads to the end, and keeps tokens and faults as the unguarded reading does.
def collect (s : Stream) (log : Log) : Except Abort (List Token × Log) :=
  match _h : next s with
  | .error reason => .error reason
  | .ok none => .ok ([], log)
  | .ok (some (.token t, rest)) =>
    (collect rest log).map fun (tokens, log) => (t :: tokens, log)
  | .ok (some (.fault f, rest)) => collect rest (log.push f.diagnostic)
termination_by s.size
decreasing_by all_goals exact size_of_next _h

def scan (log : Log) (source : String) : Except Abort (List Token × Log) :=
  collect (.ofSource source) log

end Lox.Guarded
