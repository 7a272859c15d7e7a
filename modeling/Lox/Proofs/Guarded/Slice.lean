import Lox.Proofs.Lexical.Munch
import Lox.Proofs.Text.Place

namespace Lox.Guarded

open Lox.Number Lox.Text

-- Why reading could be given up.
inductive Abort where
  -- two places of different texts
  | foreign
  -- an end in front of its start
  | backwards
  -- a cut behind the end of a text, or inside one of its characters
  | boundary
  -- a lexeme that is not a number
  | malformed
  deriving DecidableEq

section Results

variable {α β : Type} {x : Except Abort α} {b : β}

theorem exists_of_bind {f : α → Except Abort β}
    (h : x >>= f = .ok b) : ∃ a, x = .ok a ∧ f a = .ok b := by
  cases x with
  | error reason => cases h
  | ok a => exact ⟨a, rfl, h⟩

theorem exists_of_map {f : α → β}
    (h : x.map f = .ok b) : ∃ a, x = .ok a ∧ f a = b := by
  cases x with
  | error reason => cases h
  | ok a => exact ⟨a, rfl, Except.ok.inj h⟩

end Results

section Cuts

-- Cuts a text behind so many bytes.
def cutBytes : Nat → List Char → Except Abort (List Char × List Char)
  | 0, text => .ok ([], text)
  | _ + 1, [] => .error .boundary
  | size + 1, c :: text =>
    if size + 1 < c.utf8Size then .error .boundary
    else (cutBytes (size + 1 - c.utf8Size) text).map fun (front, rest) => (c :: front, rest)

-- The bytes of a text from one offset up to another.
def slice (text : List Char) (start stop : Nat) : Except Abort (List Char) :=
  if stop < start then .error .backwards
  else do
    let (_, rest) ← cutBytes start text
    let (inner, _) ← cutBytes (stop - start) rest
    return inner

theorem cutBytes_append (front rest : List Char) :
    cutBytes (byteLength front) (front ++ rest) = .ok (front, rest) := by
  induction front with
  | nil => rw [byteLength_nil, cutBytes, List.nil_append]
  | cons c front ih =>
    have hpos := c.utf8Size_pos
    obtain ⟨size, hsize⟩ : ∃ size, byteLength (c :: front) = size + 1 :=
      ⟨byteLength (c :: front) - 1, by rw [byteLength_cons]; omega⟩
    have hfits : ¬ size + 1 < c.utf8Size := by rw [← hsize, byteLength_cons]; omega
    have hleft : size + 1 - c.utf8Size = byteLength front := by
      rw [← hsize, byteLength_cons]
      omega
    rw [hsize, List.cons_append, cutBytes, if_neg hfits, hleft, ih]
    rfl

theorem eq_append_of_cutBytes {size : Nat} {text front rest : List Char}
    (h : cutBytes size text = .ok (front, rest)) : text = front ++ rest ∧ byteLength front = size := by
  induction text generalizing size front rest with
  | nil =>
    cases size with
    | zero => cases h; exact ⟨rfl, rfl⟩
    | succ size => cases h
  | cons c text ih =>
    cases size with
    | zero => cases h; exact ⟨rfl, rfl⟩
    | succ size =>
      rw [cutBytes] at h
      split at h
      · cases h
      · obtain ⟨⟨inner, more⟩, hcut, hpair⟩ := exists_of_map h
        cases hpair
        obtain ⟨rfl, hsize⟩ := ih hcut
        refine ⟨rfl, ?_⟩
        rw [byteLength_cons, hsize]
        omega

-- The places where a text can be cut are the ends of its fronts.
theorem cutBytes_eq_ok_iff {size : Nat} {text front rest : List Char} :
    cutBytes size text = .ok (front, rest) ↔ text = front ++ rest ∧ byteLength front = size := by
  constructor
  · exact eq_append_of_cutBytes
  · rintro ⟨rfl, rfl⟩
    exact cutBytes_append front rest

theorem slice_append (front inner rest : List Char) :
    slice (front ++ (inner ++ rest)) (byteLength front) (byteLength (front ++ inner)) =
      .ok inner := by
  have hforward : ¬ byteLength (front ++ inner) < byteLength front := by
    rw [byteLength_append]
    omega
  have hsize : byteLength (front ++ inner) - byteLength front = byteLength inner := by
    rw [byteLength_append]
    omega
  rw [slice, if_neg hforward, hsize, cutBytes_append]
  simp only [bind, Except.bind, cutBytes_append, pure, Except.pure]

-- A slice leaves out whole characters on both sides.
theorem slice_eq_ok_iff {text inner : List Char} {start stop : Nat} :
    slice text start stop = .ok inner ↔
      ∃ front rest, text = front ++ (inner ++ rest) ∧ byteLength front = start ∧
        byteLength (front ++ inner) = stop := by
  constructor
  · intro h
    rw [slice] at h
    split at h
    · cases h
    · obtain ⟨⟨front, behind⟩, hfront, h⟩ := exists_of_bind h
      obtain ⟨⟨inner', rest⟩, hinner, h⟩ := exists_of_bind h
      cases h
      obtain ⟨rfl, hstart⟩ := cutBytes_eq_ok_iff.mp hfront
      obtain ⟨rfl, hsize⟩ := cutBytes_eq_ok_iff.mp hinner
      refine ⟨front, rest, rfl, hstart, ?_⟩
      rw [byteLength_append]
      omega
  · rintro ⟨front, rest, rfl, rfl, rfl⟩
    exact slice_append front inner rest

-- The letter takes two bytes, and there is no cut between them.
example : slice ['a', 'é'] 1 3 = .ok ['é'] ∧ slice ['a', 'é'] 0 2 = .error .boundary := ⟨rfl, rfl⟩

end Cuts

section Places

-- The text between two places.
def lexeme (start stop : Position) : Except Abort String :=
  if start.source ≠ stop.source then .error .foreign
  else (slice start.source.toList start.offset stop.offset).map String.ofList

-- The stretch between two places.
def span (start stop : Position) : Except Abort Span :=
  if start.source ≠ stop.source then .error .foreign
  else if stop.offset < start.offset then .error .backwards
  else .ok ⟨start, stop⟩

-- There is a stretch exactly where the unguarded reading has one.
theorem toOption_span (start stop : Position) :
    (span start stop).toOption = Span.between? start stop := by
  unfold span Span.between?
  by_cases hsource : start.source = stop.source
  · by_cases hoffset : stop.offset < start.offset
    · simp [hsource, hoffset, Except.toOption]
    · simp [hsource, hoffset, Nat.not_lt.mp hoffset, Except.toOption]
  · simp [hsource, Except.toOption]

variable {source : String} {front text rest : List Char}

theorem lexeme_behind (h : source.toList = front ++ (text ++ rest)) :
    lexeme (.behind source front) (.behind source (front ++ text)) = .ok (String.ofList text) := by
  have hslice := slice_eq_ok_iff.mpr ⟨front, rest, h, rfl, rfl⟩
  simp only [lexeme, Position.behind, ne_eq, not_true_eq_false, if_false, hslice, Except.map]

theorem span_behind (source : String) (front text : List Char) :
    span (.behind source front) (.behind source (front ++ text)) =
      .ok (.behind source front text) := by
  have hforward : ¬ byteLength (front ++ text) < byteLength front := by
    rw [byteLength_append]
    omega
  simp only [span, Span.behind, Position.behind, ne_eq, not_true_eq_false, if_false, hforward]

end Places

section Numbers

-- A number is written with digits, or with digits on both sides of one point.
inductive Writes : List Char → Decimal → Prop where
  | whole {digits : List Char} :
      digits ≠ [] → (∀ d ∈ digits, d.isDigit = true) → Writes digits (.ofDigits digits [])
  | fraction {digits places : List Char} :
      digits ≠ [] → (∀ d ∈ digits, d.isDigit = true) →
      places ≠ [] → (∀ d ∈ places, d.isDigit = true) →
      Writes (digits ++ '.' :: places) (.ofDigits digits places)

-- The digits behind the point, for a text that is nothing more than these and the point.
def places? : List Char → Option (List Char)
  | [] => some []
  | '.' :: places => if places.isEmpty || !places.all Char.isDigit then none else some places
  | _ => none

-- The number that a text is written for as a whole.
def decimal? (text : List Char) : Option Decimal :=
  let digits := text.takeWhile Char.isDigit
  if digits.isEmpty then none else (places? (text.drop digits.length)).map (.ofDigits digits)

theorem decimal?_append {digits rest : List Char} (hne : digits ≠ [])
    (hdigits : ∀ d ∈ digits, d.isDigit = true) (hrest : ∀ c ∈ rest.head?, c.isDigit = false) :
    decimal? (digits ++ rest) = (places? rest).map (.ofDigits digits) := by
  have htake := Lexical.takeWhile_append_of_stop hdigits hrest
  simp only [decimal?, htake, List.drop_left, List.isEmpty_iff, hne, if_false]

theorem places?_point {places : List Char} (hne : places ≠ [])
    (hplaces : ∀ d ∈ places, d.isDigit = true) : places? ('.' :: places) = some places := by
  have hall : places.all Char.isDigit = true := List.all_eq_true.mpr hplaces
  simp [places?, hne, hall]

theorem decimal?_of_writes {text : List Char} {d : Decimal} (h : Writes text d) :
    decimal? text = some d := by
  cases h with
  | whole hne hdigits =>
    have hend : ∀ c ∈ ([] : List Char).head?, c.isDigit = false := by simp
    have hread := decimal?_append hne hdigits hend
    rwa [List.append_nil] at hread
  | @fraction digits places hne hdigits hsome hplaces =>
    have hpoint : ∀ c ∈ ('.' :: places).head?, c.isDigit = false := by simp
    rw [decimal?_append hne hdigits hpoint, places?_point hsome hplaces]
    rfl

theorem writes_of_decimal? {text : List Char} {d : Decimal} (h : decimal? text = some d) :
    Writes text d := by
  obtain ⟨digits, rest, rfl, hdigits, hrest⟩ := Lexical.exists_takeWhile Char.isDigit text
  by_cases hne : digits = []
  · subst hne
    have htake := Lexical.takeWhile_append_of_stop hdigits hrest
    simp only [decimal?, htake, List.isEmpty_nil, if_true] at h
    cases h
  rw [decimal?_append hne hdigits hrest] at h
  unfold places? at h
  split at h
  · cases h
    rw [List.append_nil]
    exact .whole hne hdigits
  · split at h
    · cases h
    · rename_i hplaces
      rw [Bool.or_eq_true, not_or] at hplaces
      cases h
      exact .fraction hne hdigits (by simpa using hplaces.1) (by simpa using hplaces.2)
  · cases h

theorem decimal?_eq_some_iff {text : List Char} {d : Decimal} :
    decimal? text = some d ↔ Writes text d :=
  ⟨writes_of_decimal?, decimal?_of_writes⟩

end Numbers

end Lox.Guarded
