import Lox.Proofs.Text.Lines
import Lox.Run.Session

namespace Lox

open Lox.Text

namespace Transcript

@[simp] theorem out_append (s t : Transcript) : (s ++ t).out = s.out ++ t.out := rfl

@[simp] theorem err_append (s t : Transcript) : (s ++ t).err = s.err ++ t.err := rfl

@[simp] theorem code_append (s t : Transcript) : (s ++ t).code = t.code := rfl

def silent : Transcript := ⟨"", "", 0⟩

theorem silent_append (t : Transcript) : silent ++ t = t := by
  obtain ⟨out, err, code⟩ := t
  change (⟨"" ++ out, "" ++ err, code⟩ : Transcript) = ⟨out, err, code⟩
  rw [String.empty_append, String.empty_append]

theorem append_assoc (s t u : Transcript) : s ++ t ++ u = s ++ (t ++ u) := by
  change (⟨s.out ++ t.out ++ u.out, s.err ++ t.err ++ u.err, u.code⟩ : Transcript) =
    ⟨s.out ++ (t.out ++ u.out), s.err ++ (t.err ++ u.err), u.code⟩
  rw [String.append_assoc, String.append_assoc]

end Transcript

namespace Session

open Transcript

theorem respond_of_text (listing : Bool) {line : Bytes} (h : (decode? line).isSome = true) :
    ∃ answer, respond listing line = .ok answer := by
  obtain ⟨text, htext⟩ := Option.isSome_iff_exists.mp h
  exact ⟨_, by rw [respond, htext]⟩

variable {listing : Bool}

theorem ofLines_cons_of_ok {line : Bytes} {answer : Transcript}
    (h : respond listing line = .ok answer) (rest : List Bytes) :
    ofLines listing (line :: rest) = invitation ++ answer ++ ofLines listing rest := by
  rw [ofLines, h]

theorem ofLines_cons_of_not_text {line : Bytes} (h : decode? line = none) (rest : List Bytes) :
    ofLines listing (line :: rest) = invitation ++ failed .notText := by
  rw [ofLines, respond, h]

-- Lines that are texts say the same whatever comes behind them, and have no say in that.
theorem exists_ofLines_append (listing : Bool) {front : List Bytes}
    (h : ∀ line ∈ front, (decode? line).isSome = true) :
    ∃ said : Transcript, ∀ rest, ofLines listing (front ++ rest) = said ++ ofLines listing rest := by
  induction front with
  | nil => exact ⟨silent, fun rest => (silent_append _).symm⟩
  | cons line front ih =>
    obtain ⟨answer, hanswer⟩ := respond_of_text listing (h line List.mem_cons_self)
    obtain ⟨said, hsaid⟩ := ih fun other hmem => h other (List.mem_cons_of_mem _ hmem)
    refine ⟨invitation ++ answer ++ said, fun rest => ?_⟩
    rw [List.cons_append, ofLines_cons_of_ok hanswer, hsaid, append_assoc _ said]

-- A line that is no text is where the session ends.
theorem ofLines_append_of_not_text {line : Bytes} (h : decode? line = none)
    (front rest : List Bytes) :
    ofLines listing (front ++ line :: rest) = ofLines listing (front ++ [line]) := by
  induction front with
  | nil => rw [List.nil_append, List.nil_append, ofLines_cons_of_not_text h, ofLines_cons_of_not_text h]
  | cons first front ih => rw [List.cons_append, List.cons_append, ofLines, ofLines, ih]

theorem exists_first_not_text {texts : List Bytes} (h : ∃ line ∈ texts, decode? line = none) :
    ∃ front bad behind, texts = front ++ bad :: behind ∧
      (∀ line ∈ front, (decode? line).isSome = true) ∧ decode? bad = none := by
  obtain ⟨line, hmem, hline⟩ := h
  have hfound : (texts.find? fun line => (decode? line).isNone).isSome = true :=
    List.find?_isSome.mpr ⟨line, hmem, by rw [hline, Option.isNone_none]⟩
  obtain ⟨bad, hbad⟩ := Option.isSome_iff_exists.mp hfound
  obtain ⟨hnone, front, behind, heq, hfront⟩ := List.find?_eq_some_iff_append.mp hbad
  refine ⟨front, bad, behind, heq, ?_, Option.isNone_iff_eq_none.mp hnone⟩
  intro line hline
  simpa using hfront line hline

section Texts

variable {front : List Bytes} (h : ∀ line ∈ front, (decode? line).isSome = true)

include h

-- Texts are answered in front of the next read, and what follows that read is a session of its own.
theorem said_of_texts (rest : List Bytes) :
    ∃ said, (ofLines listing front).out = said ++ "> " ∧
      (ofLines listing (front ++ rest)).out = said ++ (ofLines listing rest).out ∧
      (ofLines listing (front ++ rest)).err =
        (ofLines listing front).err ++ (ofLines listing rest).err ∧
      (ofLines listing (front ++ rest)).code = (ofLines listing rest).code := by
  obtain ⟨said, hsaid⟩ := exists_ofLines_append listing h
  have hfront := hsaid []
  rw [List.append_nil] at hfront
  refine ⟨said.out, ?_, ?_, ?_, ?_⟩
  · rw [hfront]
    rfl
  · rw [hsaid, out_append]
  · rw [hsaid, err_append, hfront, err_append]
    exact congrArg (· ++ _) String.append_empty.symm
  · rw [hsaid, code_append]

theorem failed_of_texts {bad : Bytes} (hbad : decode? bad = none) :
    ofLines listing (front ++ [bad]) = ofLines listing front ++ failed .notText := by
  obtain ⟨said, hsaid⟩ := exists_ofLines_append listing h
  have hfront := hsaid []
  rw [List.append_nil] at hfront
  rw [hsaid, hfront, ofLines_cons_of_not_text hbad, append_assoc]
  rfl

end Texts

-- A line alone is answered as a file that holds it, unless it is blank.
theorem ofLines_singleton {line : Bytes} {text : String} (htext : decode? line = some text) :
    let file := Transcript.ofFile listing (.ok line)
    ofLines listing [line] =
      if isBlankText text then ⟨"> > ", "", 0⟩ else ⟨"> " ++ file.out ++ "> ", file.err, 0⟩ := by
  intro file
  have hfile : file = .ofSource listing text := by
    simp only [file, ofFile, htext]
  have hanswer : respond listing line =
      .ok (if isBlankText text then silent else .ofSource listing text) := by
    rw [respond, htext]
    rfl
  rw [ofLines_cons_of_ok hanswer, hfile]
  split
  · rfl
  · change (⟨_, "" ++ _ ++ "", 0⟩ : Transcript) = _
    rw [String.empty_append, String.append_empty]
    rfl

-- A session answers each line for itself. What lines have led to stays as it is whatever comes behind
-- them, and all that they leave to it is the last invitation to go on. A line that is no text is the
-- end, and nothing behind it is read.
theorem ofInput_append (listing : Bool) :
    (∀ a b : Bytes, a.getLast? = some newline → (∀ line ∈ lines a, (decode? line).isSome = true) →
      ∃ said, (ofInput listing a).out = said ++ "> " ∧
        (ofInput listing (a ++ b)).out = said ++ (ofInput listing b).out ∧
        (ofInput listing (a ++ b)).err = (ofInput listing a).err ++ (ofInput listing b).err ∧
        (ofInput listing (a ++ b)).code = (ofInput listing b).code) ∧
    (∀ a b : Bytes, a.getLast? = some newline → (∃ line ∈ lines a, decode? line = none) →
      ofInput listing (a ++ b) = ofInput listing a ∧ (ofInput listing a).code = 1 ∧
      ∃ front bad behind, lines a = front ++ bad :: behind ∧
        (∀ line ∈ front, (decode? line).isSome = true) ∧ decode? bad = none ∧
        (ofInput listing a).out = (ofInput listing front.flatten).out ∧
        (ofInput listing a).err = (ofInput listing front.flatten).err ++
          "Error: stream did not contain valid UTF-8\n") ∧
    (∀ line text, line ≠ [] → newline ∉ line.dropLast → decode? line = some text →
      let file := Transcript.ofFile listing (.ok line)
      ofInput listing line =
        if isBlankText text then ⟨"> > ", "", 0⟩ else ⟨"> " ++ file.out ++ "> ", file.err, 0⟩) := by
  refine ⟨?_, ?_, ?_⟩
  · intro a b hend htexts
    rw [ofInput, ofInput, ofInput, lines_append hend]
    exact said_of_texts htexts (lines b)
  · intro a b hend hbad
    obtain ⟨front, bad, behind, hlines, htexts, hnone⟩ := exists_first_not_text hbad
    have hsession (rest : List Bytes) :
        ofLines listing (front ++ bad :: rest) = ofLines listing front ++ failed .notText := by
      rw [ofLines_append_of_not_text hnone, failed_of_texts htexts hnone]
    have ha : ofInput listing a = ofLines listing front ++ failed .notText := by
      rw [ofInput, hlines, hsession]
    have hfront : ofInput listing front.flatten = ofLines listing front := by
      rw [ofInput, lines_flatten hlines]
    refine ⟨?_, ?_, front, bad, behind, hlines, htexts, hnone, ?_, ?_⟩
    · rw [ha, ofInput, lines_append hend, hlines, List.append_assoc, List.cons_append, hsession]
    · rw [ha, code_append]
      rfl
    · rw [ha, hfront, out_append]
      exact String.append_empty
    · rw [ha, hfront, err_append]
      rfl
  · intro line text hne hline htext
    rw [ofInput, lines_singleton hne hline]
    exact ofLines_singleton htext

-- A fault on one line leaves the next ones alone, a byte that is no text does not, and a blank line
-- is only passed over.
theorem ofInput_append_faults :
    let a := encode "-1\n(\n"
    let bad : Bytes := encode "2\n" ++ [0xFF, newline]
    let b := encode "\"x\n"
    a.getLast? = some newline ∧ (∀ line ∈ lines a, (decode? line).isSome = true) ∧
      (∃ said, (ofInput true a).out = said ++ "> " ∧
        (ofInput true (a ++ b)).out = said ++ (ofInput true b).out ∧
        (ofInput true (a ++ b)).err = (ofInput true a).err ++ (ofInput true b).err ∧
        (ofInput true (a ++ b)).code = (ofInput true b).code) ∧
      (ofInput true a).out =
        "> 1 Minus '-'\n1 Number '1' 1\n2 Eof ''\n(- 1)\n> 1 LeftParen '('\n2 Eof ''\n> " ∧
      (ofInput true a).err = "[line 2] Error at end: Expect expression.\n" ∧
      bad.getLast? = some newline ∧ (∃ line ∈ lines bad, decode? line = none) ∧
      ofInput true (bad ++ b) = ofInput true bad ∧
      (ofInput true bad).out = "> 1 Number '2' 2\n2 Eof ''\n2\n> " ∧
      decode? (encode "-1\n") = some "-1\n" ∧
      ofInput true (encode "-1\n") =
        ⟨"> " ++ "1 Minus '-'\n1 Number '1' 1\n2 Eof ''\n(- 1)\n" ++ "> ", "", 0⟩ ∧
      decode? (encode "\u3000\n") = some "\u3000\n" ∧
      ofInput true (encode "\u3000\n") = ⟨"> > ", "", 0⟩ := by
  intro a bad b
  obtain ⟨hsame, hstop, hsingle⟩ := ofInput_append true
  have hend : a.getLast? = some newline := by decide +kernel
  have htexts : ∀ line ∈ lines a, (decode? line).isSome = true := by decide +kernel
  have hout : (ofInput true a).out =
      "> 1 Minus '-'\n1 Number '1' 1\n2 Eof ''\n(- 1)\n> 1 LeftParen '('\n2 Eof ''\n> " := by
    decide +kernel
  have herr : (ofInput true a).err = "[line 2] Error at end: Expect expression.\n" := by
    decide +kernel
  have hbadend : bad.getLast? = some newline := by decide +kernel
  have hbad : ∃ line ∈ lines bad, decode? line = none :=
    ⟨[0xFF, newline], by decide +kernel, by decide +kernel⟩
  have hbadout : (ofInput true bad).out = "> 1 Number '2' 2\n2 Eof ''\n2\n> " := by decide +kernel
  have htree : decode? (encode "-1\n") = some "-1\n" := by decide +kernel
  have hfile : (Transcript.ofFile true (.ok (encode "-1\n"))).out =
      "1 Minus '-'\n1 Number '1' 1\n2 Eof ''\n(- 1)\n" := by decide +kernel
  have hfine : (Transcript.ofFile true (.ok (encode "-1\n"))).err = "" := by decide +kernel
  have hline := hsingle (encode "-1\n") "-1\n" (by decide +kernel) (by decide +kernel) htree
  simp only [hfile, hfine] at hline
  rw [if_neg (by decide +kernel)] at hline
  have htext : decode? (encode "\u3000\n") = some "\u3000\n" := by decide +kernel
  have hblank := hsingle (encode "\u3000\n") "\u3000\n" (by decide +kernel) (by decide +kernel) htext
  exact ⟨hend, htexts, hsame a b hend htexts, hout, herr, hbadend, hbad,
    (hstop bad b hbadend hbad).1, hbadout, htree, hline, htext, hblank⟩

end Session

end Lox
