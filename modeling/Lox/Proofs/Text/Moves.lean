import Lox.Proofs.Lexical.Distinct
import Mathlib.Logic.Function.Basic

namespace Lox.Text

-- Places of texts, each held under a number.
abbrev Places := Nat → Option Position

-- What can be done with a place. A look at the characters ahead does not move it.
inductive Move where
  | start (slot : Nat) (source : String)
  | copy (slot origin : Nat)
  | next (slot : Nat)
  | nth (slot count : Nat)
  | nextIf (slot : Nat) (expected : Char)
  | skipWhile (slot : Nat) (test : Char → Bool)
  | peek (slot : Nat)
  | peekSecond (slot : Nat)

namespace Move

def apply (places : Places) : Move → Places
  | start slot source => Function.update places slot (some (.start source))
  | copy slot origin => Function.update places slot (places origin)
  | next slot => Function.update places slot ((places slot).map fun p => p.next.2)
  | nth slot count => Function.update places slot ((places slot).map fun p => (p.nth count).2)
  | nextIf slot expected =>
    Function.update places slot ((places slot).map fun p => (p.nextIf expected).2)
  | skipWhile slot test => Function.update places slot ((places slot).map fun p => p.skipWhile test)
  | peek _ | peekSecond _ => places

def run (places : Places) (moves : List Move) : Places := moves.foldl apply places

end Move

-- The places to which any moves lead, where no place is held at first.
def Reachable (p : Position) : Prop :=
  ∃ moves slot, Move.run (fun _ => none) moves slot = some p

section Steps

variable (p : Position)

theorem skip_one : p.skip 1 = p.step := by rw [Position.skip_succ, Position.skip]

theorem next_eq_skip : p.next.2 = p.skip 1 := (skip_one p).symm

theorem nth_eq_skip (count : Nat) : (p.nth count).2 = p.skip (count + 1) := by
  rw [← Position.skip_skip, skip_one]
  rfl

theorem nextIf_eq_skip (expected : Char) : ∃ count, (p.nextIf expected).2 = p.skip count := by
  unfold Position.nextIf
  split
  · exact ⟨1, (skip_one p).symm⟩
  · exact ⟨0, rfl⟩

end Steps

variable {places : Places} {p q : Position}

theorem Move.update_cases {slot target : Nat} {moved : Position → Position}
    (hmoved : ∀ q, ∃ count, moved q = q.skip count)
    (h : Function.update places slot ((places slot).map moved) target = some p) :
    ∃ origin q count, places origin = some q ∧ p = q.skip count := by
  by_cases htarget : target = slot
  · subst htarget
    rw [Function.update_self] at h
    obtain ⟨q, hq, rfl⟩ := Option.map_eq_some_iff.mp h
    obtain ⟨count, hcount⟩ := hmoved q
    exact ⟨target, q, count, hq, hcount⟩
  · rw [Function.update_of_ne htarget] at h
    exact ⟨target, p, 0, h, rfl⟩

-- Every move begins a text, or skips some characters from a place that is held already.
theorem Move.apply_cases {move : Move} {target : Nat} (h : move.apply places target = some p) :
    (∃ source, p = .start source) ∨
      ∃ origin q count, places origin = some q ∧ p = q.skip count := by
  cases move with
  | start slot source =>
    by_cases htarget : target = slot
    · rw [apply, htarget, Function.update_self] at h
      exact .inl ⟨source, (Option.some.inj h).symm⟩
    · rw [apply, Function.update_of_ne htarget] at h
      exact .inr ⟨target, p, 0, h, rfl⟩
  | copy slot origin =>
    by_cases htarget : target = slot
    · rw [apply, htarget, Function.update_self] at h
      exact .inr ⟨origin, p, 0, h, rfl⟩
    · rw [apply, Function.update_of_ne htarget] at h
      exact .inr ⟨target, p, 0, h, rfl⟩
  | next slot => exact .inr (update_cases (fun q => ⟨1, next_eq_skip q⟩) h)
  | nth slot count => exact .inr (update_cases (fun q => ⟨count + 1, nth_eq_skip q count⟩) h)
  | nextIf slot expected => exact .inr (update_cases (fun q => nextIf_eq_skip q expected) h)
  | skipWhile slot test => exact .inr (update_cases (fun q => ⟨_, rfl⟩) h)
  | peek slot => exact .inr ⟨target, p, 0, h, rfl⟩
  | peekSecond slot => exact .inr ⟨target, p, 0, h, rfl⟩

-- A place that lies behind a front of its text.
def LiesBehind (p : Position) : Prop :=
  ∃ source front rest, source.toList = front ++ rest ∧ p = .behind source front

theorem LiesBehind.skip (h : LiesBehind p) (count : Nat) : LiesBehind (p.skip count) := by
  obtain ⟨source, front, rest, hsource, rfl⟩ := h
  refine ⟨source, front ++ rest.take count, rest.drop count, ?_, ?_⟩
  · rw [List.append_assoc, List.take_append_drop, hsource]
  · exact Position.skip_eq_behind hsource count

-- One move keeps every place behind a front of its text.
theorem Move.apply_liesBehind {move : Move} (h : ∀ slot p, places slot = some p → LiesBehind p) :
    ∀ slot p, move.apply places slot = some p → LiesBehind p := by
  intro slot p hp
  obtain ⟨source, rfl⟩ | ⟨origin, q, count, hq, rfl⟩ := apply_cases hp
  · exact ⟨source, [], source.toList, rfl, (Position.behind_nil source).symm⟩
  · exact (h origin q hq).skip count

theorem Move.run_liesBehind {moves : List Move} (h : ∀ slot p, places slot = some p → LiesBehind p) :
    ∀ slot p, run places moves slot = some p → LiesBehind p := by
  induction moves generalizing places with
  | nil => exact h
  | cons move moves ih => exact ih (apply_liesBehind h)

theorem Reachable.liesBehind (h : Reachable p) : LiesBehind p := by
  obtain ⟨moves, slot, hp⟩ := h
  refine Move.run_liesBehind ?_ slot p hp
  intro slot q hq
  cases hq

-- A place together with what has been read of its text. The text goes on with what is left, the
-- bytes that are read are counted, and the line is counted from one.
structure Tracks (p : Position) (front : String) : Prop where
  source : p.source = front ++ String.ofList p.rest
  offset : p.offset = front.utf8ByteSize
  line : p.line = 1 + front.toList.count '\n'

theorem tracks_behind {source : String} {front rest : List Char}
    (h : source.toList = front ++ rest) : Tracks (.behind source front) (String.ofList front) := by
  refine ⟨?_, ?_, ?_⟩
  · rw [Position.rest_behind h, ← String.ofList_append, ← h, String.ofList_toList]
    rfl
  · rw [← byteLength_toList, String.toList_ofList]
    rfl
  · rw [String.toList_ofList]
    rfl

theorem LiesBehind.exists_tracks (h : LiesBehind p) : ∃ front, Tracks p front := by
  obtain ⟨source, front, rest, hsource, rfl⟩ := h
  exact ⟨_, tracks_behind hsource⟩

theorem Tracks.isValid {front : String} (h : Tracks p front) :
    String.Pos.Raw.IsValid p.source ⟨p.offset⟩ := by
  rw [String.Pos.Raw.isValid_iff_exists_append]
  refine ⟨front, String.ofList p.rest, h.source, ?_⟩
  rw [h.offset]
  rfl

section Agreement

variable {front front' : String}

-- In one text the number of bytes tells fronts apart, and so does what is left behind them.
theorem Tracks.front_eq_of_offset (hp : Tracks p front) (hq : Tracks q front')
    (hsource : p.source = q.source) (h : p.offset = q.offset) : front = front' := by
  rw [hp.offset, hq.offset, ← byteLength_toList, ← byteLength_toList] at h
  rw [hp.source, hq.source] at hsource
  have hfronts := congrArg (fun s => takeBytes (byteLength front.toList) s.toList) hsource
  simp only [String.toList_append] at hfronts
  rw [takeBytes_append, h, takeBytes_append] at hfronts
  exact String.toList_injective hfronts

theorem Tracks.front_eq_of_rest (hp : Tracks p front) (hq : Tracks q front')
    (hsource : p.source = q.source) (h : p.rest = q.rest) : front = front' := by
  rw [hp.source, hq.source, h] at hsource
  have hfronts := congrArg String.toList hsource
  rw [String.toList_append, String.toList_append] at hfronts
  exact String.toList_injective (List.append_cancel_right hfronts)

theorem Tracks.rest_eq (hp : Tracks p front) (hq : Tracks q front)
    (hsource : p.source = q.source) : p.rest = q.rest := by
  rw [hp.source, hq.source] at hsource
  have hrests := congrArg String.toList hsource
  rw [String.toList_append, String.toList_append, String.toList_ofList,
    String.toList_ofList] at hrests
  exact List.append_cancel_left hrests

end Agreement

-- Whatever moves are made, every place knows its text, how many bytes of it are read and how many
-- lines. So it does not matter that places are compared without their offsets and lines.
theorem reachable_places_agree (hp : Reachable p) (hq : Reachable q) :
    (∃ front, Tracks p front) ∧ String.Pos.Raw.IsValid p.source ⟨p.offset⟩ ∧
      (p.source = q.source →
        ((p == q) = true ↔ p.offset = q.offset) ∧ ((p == q) = true ↔ p.rest = q.rest) ∧
          ((p == q) = true → p.line = q.line)) ∧
      (p.source ≠ q.source → (p == q) = false) := by
  obtain ⟨front, hfront⟩ := hp.liesBehind.exists_tracks
  obtain ⟨front', hfront'⟩ := hq.liesBehind.exists_tracks
  refine ⟨⟨front, hfront⟩, hfront.isValid, fun hsource => ?_, fun hsource => ?_⟩
  · have hequal : (p == q) = true ↔ p.rest = q.rest := by
      rw [Position.beq_iff]
      exact and_iff_right hsource
    have hsame (h : (p == q) = true) : front = front' :=
      hfront.front_eq_of_rest hfront' hsource (hequal.mp h)
    refine ⟨⟨fun h => ?_, fun h => ?_⟩, hequal, fun h => ?_⟩
    · rw [hfront.offset, hfront'.offset, hsame h]
    · obtain rfl := hfront.front_eq_of_offset hfront' hsource h
      exact hequal.mpr (hfront.rest_eq hfront' hsource)
    · rw [hfront.line, hfront'.line, hsame h]
  · rw [← Bool.not_eq_true, Position.beq_iff]
    exact fun h => hsource h.1

-- Two ways to the place behind a newline.
theorem reachable_places_agree_newline :
    ∃ p q, Reachable p ∧ Reachable q ∧ (p == q) = true ∧ p.offset = 3 ∧ p.line = q.line ∧
      q.line = 2 := by
  let moves : List Move := [.start 0 "é\n+", .copy 1 0, .nth 0 1, .skipWhile 1 (· ≠ '+')]
  let p := ((Position.start "é\n+").nth 1).2
  let q := (Position.start "é\n+").skipWhile (· ≠ '+')
  have hp : Reachable p := ⟨moves, 0, rfl⟩
  have hq : Reachable q := ⟨moves, 1, rfl⟩
  have hoffset : p.offset = q.offset := by decide +kernel
  obtain ⟨-, -, hsame, -⟩ := reachable_places_agree hp hq
  obtain ⟨hoffsets, -, hline⟩ := hsame rfl
  have hequal := hoffsets.mpr hoffset
  exact ⟨p, q, hp, hq, hequal, by decide +kernel, hline hequal, by decide +kernel⟩

end Lox.Text
