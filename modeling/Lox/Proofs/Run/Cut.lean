import Lox.Run.Sink
import Lox.Text.Utf8
import Mathlib.Data.List.Basic

namespace Lox

open Lox.Text

namespace Sink

variable {room : Nat} {text : String}

theorem write_of_le (held : Array UInt8) (h : text.utf8ByteSize ≤ room) :
    (⟨some room, held⟩ : Sink).write text =
      (⟨some (room - text.utf8ByteSize), held ++ text.toUTF8.data⟩, true) := by
  have hsize : text.toUTF8.data.size ≤ room := h
  simp only [write, hsize, if_true]
  rfl

theorem write_of_lt (held : Array UInt8) (h : room < text.utf8ByteSize) :
    (⟨some room, held⟩ : Sink).write text =
      (⟨some 0, held ++ text.toUTF8.data.take room⟩, false) := by
  have hsize : ¬ text.toUTF8.data.size ≤ room := Nat.not_le.mpr h
  simp only [write, hsize, if_false]

-- What has been held comes first, and then as much of all the texts as there is room for. It does
-- not matter which of them is the one that is cut.
theorem writeAll_limited (texts : List String) (room : Nat) (held : Array UInt8) :
    let result := (⟨some room, held⟩ : Sink).writeAll texts
    result.1.held.toList = held.toList ++ (encode (String.join texts)).take room ∧
      result.2 = decide ((String.join texts).utf8ByteSize ≤ room) := by
  induction texts generalizing room held with
  | nil => simp [writeAll]
  | cons text texts ih =>
    rw [String.join_cons, encode_append, String.utf8ByteSize_append]
    by_cases hfits : text.utf8ByteSize ≤ room
    · have hwrite := write_of_le held hfits
      obtain ⟨hheld, hall⟩ := ih (room - text.utf8ByteSize) (held ++ text.toUTF8.data)
      have hwhole : (encode text).take room = encode text := List.take_of_length_le hfits
      simp only [writeAll, hwrite]
      rw [hheld, hall, List.take_append, length_encode, hwhole, Array.toList_append,
        List.append_assoc]
      exact ⟨rfl, by rw [decide_eq_decide]; omega⟩
    · have hcut := Nat.not_le.mp hfits
      have hwrite := write_of_lt held hcut
      have hroom : room - (encode text).length = 0 := Nat.sub_eq_zero_of_le (Nat.le_of_lt hcut)
      simp only [writeAll, hwrite]
      rw [List.take_append, hroom, List.take_zero, List.append_nil]
      refine ⟨?_, ?_⟩
      · simp [encode]
      · symm
        rw [decide_eq_false_iff_not]
        omega

theorem writeAll_unlimited (texts : List String) (held : Array UInt8) :
    let result := (⟨none, held⟩ : Sink).writeAll texts
    result.1.held.toList = held.toList ++ encode (String.join texts) ∧ result.2 = true := by
  induction texts generalizing held with
  | nil => simp [writeAll]
  | cons text texts ih =>
    obtain ⟨hheld, hall⟩ := ih (held ++ text.toUTF8.data)
    have hwrite : (⟨none, held⟩ : Sink).write text = (⟨none, held ++ text.toUTF8.data⟩, true) := rfl
    simp only [writeAll, hwrite]
    rw [hheld, String.join_cons, encode_append, Array.toList_append, List.append_assoc]
    exact ⟨rfl, hall⟩

end Sink

theorem run_eq (listing : Bool) (source : String) (sink : Sink) :
    let report := Report.ofSource listing source
    let written := sink.writeAll report.pieces
    run listing source sink =
      (written.1, if written.2 then report.outcome else .error .sinkFull) := by
  unfold run
  cases hwrite : sink.writeAll (Report.ofSource listing source).pieces with
  | mk written all => cases all <;> simp only [hwrite] <;> rfl

-- A sink with limited room decides how a run ends only if the output does not fit.
theorem run_limited (listing : Bool) (source : String) (room : Nat) :
    let report := Report.ofSource listing source
    let result := run listing source (.empty (some room))
    result.1.held.toList = (encode report.output).take room ∧
      result.2 = if report.output.utf8ByteSize ≤ room then report.outcome else .error .sinkFull := by
  obtain ⟨hheld, hall⟩ := Sink.writeAll_limited (Report.ofSource listing source).pieces room #[]
  rw [run_eq, Sink.empty]
  refine ⟨hheld, ?_⟩
  dsimp only
  simp only [hall, decide_eq_true_eq]
  rfl

theorem run_unlimited (listing : Bool) (source : String) :
    let report := Report.ofSource listing source
    let result := run listing source (.empty none)
    result.1.held.toList = encode report.output ∧ result.2 = report.outcome := by
  obtain ⟨hheld, hall⟩ := Sink.writeAll_unlimited (Report.ofSource listing source).pieces #[]
  rw [run_eq, Sink.empty]
  exact ⟨hheld, if_pos hall⟩

-- The words of a line of the listing: where the token ends, what it is, how it is written and what
-- value it has, if it has one.
def Token.words (t : Token) : List String :=
  [toString t.line, t.kind.name, "'" ++ t.lexeme ++ "'"] ++
    match t.data with
    | .str text => [text]
    | .number value => [value.text]
    | _ => []

theorem Token.listing_eq (t : Token) : t.listing = " ".intercalate t.words := by
  apply String.toList_inj.mp
  obtain ⟨data, span⟩ := t
  cases data <;> simp [listing, words, TokenData.payload?, Literal.text]

-- The listing of a source has a line for every token, whether or not there are faults between them.
def dump (source : String) : String :=
  String.join ((scan .empty source).1.map fun t => " ".intercalate t.words ++ "\n")

namespace Expr

-- How a tree is written: a literal by its value, everything else in parentheses with what it is in
-- front of its parts.
inductive Prints : Expr → String → Prop where
  | number (value : Number.Binary64) : Prints (literal (.number value)) value.text
  | str (text : String) : Prints (literal (.str text)) text
  | true : Prints (literal (.bool .true)) "true"
  | false : Prints (literal (.bool .false)) "false"
  | nil : Prints (literal .nil) "nil"
  | grouping {inner : Expr} {text : String} : Prints inner text →
      Prints (grouping inner) ("(" ++ "group" ++ " " ++ text ++ ")")
  | unary {operator : Token} {operand : Expr} {text : String} : Prints operand text →
      Prints (unary operator operand) ("(" ++ operator.lexeme ++ " " ++ text ++ ")")
  | binary {left right : Expr} {operator : Token} {first second : String} :
      Prints left first → Prints right second →
      Prints (binary left operator right)
        ("(" ++ operator.lexeme ++ " " ++ first ++ " " ++ second ++ ")")

section Parenthesized

variable (head first second : String)

theorem parenthesized_one : parenthesized head [first] = "(" ++ head ++ " " ++ first ++ ")" := by
  apply String.toList_inj.mp
  simp [parenthesized]

theorem parenthesized_two : parenthesized head [first, second] =
    "(" ++ head ++ " " ++ first ++ " " ++ second ++ ")" := by
  apply String.toList_inj.mp
  simp [parenthesized]

end Parenthesized

theorem prints_text (e : Expr) : Prints e e.text := by
  induction e with
  | literal value =>
    cases value with
    | number value => exact .number value
    | str text => exact .str text
    | bool value => cases value <;> constructor
    | nil => exact .nil
  | grouping inner ih =>
    have htext : (grouping inner).text = _ := parenthesized_one "group" inner.text
    rw [htext]
    exact .grouping ih
  | unary operator operand ih =>
    have htext : (unary operator operand).text = _ := parenthesized_one operator.lexeme operand.text
    rw [htext]
    exact .unary ih
  | binary left operator right ihl ihr =>
    have htext : (binary left operator right).text = _ :=
      parenthesized_two operator.lexeme left.text right.text
    rw [htext]
    exact .binary ihl ihr

end Expr

-- What is written for the tree of a source, and how a run ends that nothing cuts off. Whatever the
-- scan reports comes before any fault of the parse.
inductive Verdict (source : String) : String → Except RunError Unit → Prop where
  | scan : (scan .empty source).2.entries ≠ [] →
      Verdict source "" (.error (.scan (scan .empty source).2))
  | parse {error : ParseError} : (scan .empty source).2.entries = [] →
      parseComplete (scan .empty source).1 = .error error →
      Verdict source "" (.error (.parse error))
  | tree {e : Expr} {text : String} : (scan .empty source).2.entries = [] →
      parseComplete (scan .empty source).1 = .ok e → e.Prints text →
      Verdict source (text ++ "\n") (.ok ())

theorem Verdict.ne_sinkFull {source tree : String} {outcome : Except RunError Unit}
    (h : Verdict source tree outcome) : outcome ≠ .error .sinkFull := by
  cases h <;> simp

theorem exists_verdict (source : String) :
    ∃ tree outcome, Verdict source tree outcome ∧ ∀ listing,
      (Report.ofSource listing source).output = (if listing then dump source else "") ++ tree ∧
      (Report.ofSource listing source).outcome = outcome := by
  have hlines (listing : Bool) : String.join
      (if listing then (scan .empty source).1.map fun t => t.listing ++ "\n" else []) =
        if listing then dump source else "" := by
    simp only [dump, Token.listing_eq]
    cases listing <;> rfl
  cases hlog : (scan .empty source).2.entries with
  | cons d rest =>
    have hsome : (scan .empty source).2.entries ≠ [] := by simp [hlog]
    refine ⟨_, _, .scan hsome, fun listing => ?_⟩
    simp [Report.ofSource, Report.output, Log.isEmpty, hlog, hlines]
  | nil =>
    cases hparse : parseComplete (scan .empty source).1 with
    | error error =>
      refine ⟨_, _, .parse hlog hparse, fun listing => ?_⟩
      simp [Report.ofSource, Report.output, Log.isEmpty, hlog, hparse, hlines]
    | ok e =>
      refine ⟨_, _, .tree hlog hparse e.prints_text, fun listing => ?_⟩
      simp [Report.ofSource, Report.output, Log.isEmpty, hlog, hparse, hlines]

-- The output of a run is cut at whatever byte the sink ends. Only a cut hides how the source itself
-- would have ended the run, and the listing has no say in that.
theorem run_cut (source : String) :
    ∃ tree outcome, Verdict source tree outcome ∧ ∀ listing,
      let full := encode ((if listing then dump source else "") ++ tree)
      (run listing source (.empty none)).1.held.toList = full ∧
      (run listing source (.empty none)).2 = outcome ∧
      ∀ room, let result := run listing source (.empty (some room))
        result.1.held.toList = full.take room ∧
        result.1.held.size = min room full.length ∧
        (result.2 = .error .sinkFull ↔ room < full.length) ∧
        (full.length ≤ room → result.2 = outcome) := by
  obtain ⟨tree, outcome, hverdict, hreport⟩ := exists_verdict source
  refine ⟨tree, outcome, hverdict, fun listing => ?_⟩
  obtain ⟨houtput, houtcome⟩ := hreport listing
  obtain ⟨hheld, hend⟩ := run_unlimited listing source
  rw [houtput] at hheld
  refine ⟨hheld, hend.trans houtcome, fun room => ?_⟩
  obtain ⟨hcut, hend⟩ := run_limited listing source room
  rw [houtput] at hcut
  rw [houtput, houtcome, ← length_encode] at hend
  refine ⟨hcut, ?_, ?_, ?_⟩
  · rw [← Array.length_toList, hcut, List.length_take]
  · rw [hend, ← Nat.not_le]
    constructor
    · intro hfull hfits
      rw [if_pos hfits] at hfull
      exact hverdict.ne_sinkFull hfull
    · intro hfits
      rw [if_neg hfits]
  · intro hfits
    rw [hend, if_pos hfits]

-- The room ends within a letter of two bytes on the third line. A source at fault is listed too.
theorem run_cut_listing :
    let source := "1 +\n\"é\""
    let full := encode "1 Number '1' 1\n1 Plus '+'\n2 Str '\"é\"' é\n2 Eof ''\n(+ 1 é)\n"
    let result := run true source (.empty (some 40))
    (run true source (.empty none)).1.held.toList = full ∧
      (run true source (.empty none)).2 = .ok () ∧
      (run false source (.empty none)).1.held.toList = encode "(+ 1 é)\n" ∧
      result.1.held.toList = encode "1 Number '1' 1\n1 Plus '+'\n2 Str '\"é\"' " ++ [0xC3] ∧
      result.2 = .error .sinkFull ∧
      (run true "\"open" (.empty none)).1.held.toList = encode "1 Eof ''\n" ∧
      (run true "\"open" (.empty none)).2 =
        .error (.scan ⟨[⟨1, "", "Unterminated string."⟩]⟩) := by
  intro source full result
  obtain ⟨tree, outcome, hverdict, hrun⟩ := run_cut source
  obtain ⟨hfull, hend, hroom⟩ := hrun true
  obtain ⟨hcut, -, hfails, -⟩ := hroom 40
  have hheld : (run true source (.empty none)).1.held.toList = full := by decide +kernel
  have hparse : (parseComplete (scan .empty source).1).toOption.isSome = true := by decide +kernel
  have hok : outcome = .ok () := by
    cases hverdict with
    | scan hlog => exact absurd (by decide +kernel) hlog
    | parse _ herror =>
      rw [herror] at hparse
      cases hparse
    | tree => rfl
  obtain ⟨tree', outcome', hverdict', hrun'⟩ := run_cut "\"open"
  have hlog : (scan .empty "\"open").2 = ⟨[⟨1, "", "Unterminated string."⟩]⟩ := by decide +kernel
  have hopen : outcome' = .error (.scan ⟨[⟨1, "", "Unterminated string."⟩]⟩) := by
    cases hverdict' with
    | scan => rw [hlog]
    | parse hnone | tree hnone =>
      rw [hlog] at hnone
      cases hnone
  rw [← hfull, hheld] at hcut hfails
  refine ⟨hheld, hend.trans hok, by decide +kernel, ?_, hfails.mpr (by decide +kernel),
    by decide +kernel, (hrun' true).2.1.trans hopen⟩
  rw [hcut]
  decide +kernel

end Lox
