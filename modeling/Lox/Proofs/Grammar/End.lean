import Lox.Proofs.Grammar.Longest
import Lox.Proofs.Grammar.Viable

namespace Lox

namespace Expr

-- What reading comes to when the same tokens have more behind them.
def appendRest (tail : List Token) : Except Fault Front → Except Fault Front
  | .error fault => .error ⟨fault.cause, fault.rest ++ tail⟩
  | .ok front => .ok ⟨front.expr, front.rest ++ tail⟩

-- Tokens that are all used up, or go on with the end of input.
def Closes (tail : List Token) : Prop := ∀ t ∈ tail.head?, t.isEof = true

-- The end of input is for reading what the end of the tokens is, whatever stands behind it.
def Halts (read : List Token → Except Fault Front) : Prop :=
  ∀ tail, Closes tail → ∀ tokens, read (tokens ++ tail) = appendRest tail (read tokens)

section Halts

variable {tail tokens : List Token}

theorem Halts.ok {read : List Token → Except Fault Front} (h : Halts read) (htail : Closes tail)
    {front : Front} (hread : read tokens = .ok front) :
    read (tokens ++ tail) = .ok ⟨front.expr, front.rest ++ tail⟩ := by
  rw [h tail htail, hread, appendRest]

theorem Halts.error {read : List Token → Except Fault Front} (h : Halts read)
    (htail : Closes tail) {fault : Fault} (hread : read tokens = .error fault) :
    read (tokens ++ tail) = .error ⟨fault.cause, fault.rest ++ tail⟩ := by
  rw [h tail htail, hread, appendRest]

theorem data_of_isEof {t : Token} (h : t.isEof = true) : t.data = .eof := by
  obtain ⟨data, span⟩ := t
  cases data with
  | eof => rfl
  | _ => cases h

theorem isEof_of_kind {t : Token} (h : t.kind = .eof) : t.isEof = true := by
  obtain ⟨data, span⟩ := t
  cases data with
  | eof => rfl
  | _ => cases h

theorem halts_extend {operand : Reader} (hoperand : Halts operand.read) (htail : Closes tail)
    (left : Front) :
    extend operand ⟨left.expr, left.rest ++ tail⟩ = appendRest tail (extend operand left) := by
  fun_induction extend operand left with
  | case1 left hrest =>
    rw [hrest, List.nil_append, extend_of_stops _ _ (Grammar.stops_of_isEof htail)]
    simp [appendRest, hrest]
  | case2 left operator tokens hrest hrank =>
    have hstops : Stops (operator :: (tokens ++ tail)) := by
      rintro _ ⟨⟩
      exact hrank
    rw [hrest, List.cons_append, extend_of_stops _ _ hstops]
    simp [appendRest, hrest]
  | case3 left operator tokens hrest rank hrank fault hright =>
    rw [hrest, List.cons_append, extend_operator _ hrank, readInto, hoperand.error htail hright]
    rfl
  | case4 left operator tokens hrest rank hrank right hright ih =>
    rw [hrest, List.cons_append, extend_operator _ hrank, readInto, hoperand.ok htail hright]
    exact ih

theorem halts_readChain {operand : Reader} (hoperand : Halts operand.read) :
    Halts (readChain operand) := by
  intro tail htail tokens
  unfold readChain
  rw [hoperand tail htail]
  cases operand.read tokens with
  | error fault => rfl
  | ok left => exact halts_extend hoperand htail left

-- Whichever way reading an operand goes, it goes in the same way in front of the end of input.
theorem outcome_append {deeper : Option Reader}
    (hdeeper : ∀ operand, deeper = some operand → Halts operand.read) (htail : Closes tail)
    {result : Except Fault Front} (h : Outcome deeper tokens result) :
    Outcome deeper (tokens ++ tail) (appendRest tail result) := by
  have hchain {operand : Reader} (h : deeper = some operand) : Halts (readChain operand) :=
    halts_readChain (hdeeper operand h)
  cases h with
  | empty =>
    cases tail with
    | nil => exact .empty
    | cons t tail =>
      have hdata := data_of_isEof (htail t rfl)
      refine .foreign ?_ (by rw [hdata]; rfl)
      simp [Opens, Token.kind, hdata, TokenData.isUnary, TokenData.kind]
  | foreign hopens hvalue => exact .foreign hopens hvalue
  | tooDeep hopens hnone => exact .tooDeep hopens hnone
  | @unaryFault operator tokens operand fault hunary hsome hread =>
    exact .unaryFault hunary hsome ((hdeeper operand hsome).error htail hread)
  | groupFault hopener hsome hread =>
    exact .groupFault hopener hsome ((hchain hsome).error htail hread)
  | @unclosed opener tokens operand inner hopener hsome hread hcloser =>
    refine .unclosed hopener hsome ((hchain hsome).ok htail hread) ?_
    intro closer hmem
    cases hrest : inner.rest with
    | nil =>
      rw [hrest, List.nil_append] at hmem
      simp [Token.kind, data_of_isEof (htail closer hmem), TokenData.kind]
    | cons t rest =>
      rw [hrest] at hmem hcloser
      exact hcloser closer hmem
  | literal hvalue => exact .literal hvalue
  | @unary operator tokens operand inner hunary hsome hread =>
    exact .unary hunary hsome ((hdeeper operand hsome).ok htail hread)
  | group hopener hsome hread hcloser =>
    exact .group hopener hsome ((hchain hsome).ok htail hread) hcloser

theorem halts_readOperand {deeper : Option Reader}
    (hdeeper : ∀ operand, deeper = some operand → Halts operand.read) :
    Halts (readOperand deeper) := by
  intro tail htail tokens
  exact readOperand_eq_of_outcome
    (outcome_append hdeeper htail (outcome_readOperand deeper tokens))

theorem halts_operand (room : Nat) : Halts (operand room).read := by
  induction room with
  | zero =>
    have hnone : Halts (readOperand none) := halts_readOperand (by rintro _ ⟨⟩)
    exact hnone
  | succ room ih =>
    have hdeeper : Halts (readOperand (some (operand room))) :=
      halts_readOperand (by rintro _ ⟨⟩; exact ih)
    exact hdeeper

end Halts

-- The tokens that are left, whether or not reading has failed.
def restOf : Except Fault Front → List Token
  | .error fault => fault.rest
  | .ok front => front.rest

-- No end of input is among the tokens that reading goes over, wherever there is one.
def StaysInside (read : List Token → Except Fault Front) : Prop :=
  ∀ tokens, ∃ used, tokens = used ++ restOf (read tokens) ∧ ∀ t ∈ used, t.isEof = false

end Expr

namespace Input

section Cut

variable {tokens behind : List Token}

theorem body_append_of_eof (h : ∃ t ∈ tokens, t.isEof = true) (behind : List Token) :
    (ofTokens (tokens ++ behind)).body = (ofTokens tokens).body := by
  have hshort : (tokens.takeWhile fun t => !t.isEof).length ≠ tokens.length := by
    intro hlength
    obtain ⟨t, ht, heof⟩ := h
    have hall := List.takeWhile_eq_self_iff.mp ((List.takeWhile_sublist _).eq_of_length hlength)
    simpa [heof] using hall t ht
  rw [ofTokens, ofTokens]
  dsimp only
  rw [List.takeWhile_append, if_neg hshort]

theorem close_append_of_eof (h : ∃ t ∈ tokens, t.isEof = true) (behind : List Token) :
    (ofTokens (tokens ++ behind)).close = (ofTokens tokens).close := by
  obtain ⟨close, hclose⟩ := Option.isSome_iff_exists.mp (List.find?_isSome.mpr h)
  simp [ofTokens, List.find?_append, hclose]

-- Behind an end of input nothing counts.
theorem ofTokens_append_of_eof (h : ∃ t ∈ tokens, t.isEof = true) (behind : List Token) :
    ofTokens (tokens ++ behind) = ofTokens tokens :=
  congrArg₂ mk (body_append_of_eof h behind) (close_append_of_eof h behind)

theorem ofTokens_of_not_eof (h : ∀ t ∈ tokens, t.isEof = false) :
    ofTokens tokens = ⟨tokens, missingEof tokens⟩ := by
  have hbody : tokens.takeWhile (fun t => !t.isEof) = tokens :=
    List.takeWhile_eq_self_iff.mpr (by simpa using h)
  have hclose : tokens.find? Token.isEof = none := List.find?_eq_none.mpr (by simpa using h)
  rw [ofTokens, hbody, hclose]
  rfl

-- An end of input is added to tokens without one as if it had been there.
theorem ofTokens_append_missingEof (h : ∀ t ∈ tokens, t.isEof = false) :
    ofTokens (tokens ++ [missingEof tokens]) = ofTokens tokens := by
  have heof : (missingEof tokens).isEof = true := by
    rw [missingEof]
    cases tokens.getLast? <;> rfl
  have hplain : ∀ t ∈ tokens, (!t.isEof) = true := by simpa using h
  have hnone : tokens.find? Token.isEof = none := List.find?_eq_none.mpr (by simpa using h)
  rw [ofTokens_of_not_eof h, ofTokens, List.takeWhile_append_of_pos hplain, List.find?_append, hnone]
  simp [heof]

end Cut

end Input

namespace Grammar

open Lox.Expr Lox.Text

theorem not_isEof_of_derives {p : Phrase} {used : List Token} {e : Expr}
    (h : Derives p used e) : ∀ t ∈ used, t.isEof = false := by
  intro t ht
  cases heof : t.isEof with
  | false => rfl
  | true =>
    have hmem : t.kind ∈ used.map Token.kind := List.mem_map_of_mem ht
    rw [Token.kind, data_of_isEof heof] at hmem
    exact absurd hmem (eof_notMem_of_derives h)

theorem Completable.not_isEof {p : Phrase} {limit : Nat} {used : List Token}
    (h : Completable p limit used) : ∀ t ∈ used, t.isEof = false := by
  obtain ⟨more, e, hderives, -⟩ := h
  exact fun t ht => not_isEof_of_derives hderives t (List.mem_append_left more ht)

theorem staysInside_operand (room : Nat) : StaysInside (operand room).read := by
  intro tokens
  cases hread : (operand room).read tokens with
  | error fault =>
    obtain ⟨used, hused, hcompletable, -⟩ := precise_operand room hread
    exact ⟨used, hused, hcompletable.not_isEof⟩
  | ok front =>
    obtain ⟨used, hused, hderives, -⟩ := (exact_operand room).sound hread
    exact ⟨used, hused, not_isEof_of_derives hderives⟩

theorem staysInside_readChain (room : Nat) : StaysInside (readChain (operand room)) := by
  intro tokens
  cases hread : readChain (operand room) tokens with
  | error fault =>
    obtain ⟨used, hused, hcompletable, -⟩ :=
      (exact_operand room).precise_readChain (precise_operand room) hread
    exact ⟨used, hused, hcompletable.not_isEof⟩
  | ok front =>
    obtain ⟨used, hused, hderives, -⟩ := (exact_operand room).readChain_sound hread
    exact ⟨used, hused, not_isEof_of_derives hderives⟩

section Whole

variable (tokens : List Token)

theorem headD_append (rest tail : List Token) (standIn : Token) :
    (rest ++ tail).headD standIn = rest.headD (tail.headD standIn) := by
  cases rest <;> rfl

-- The whole list is read as far as what is in front of the end of input, and the token that is looked
-- at next is the same one.
theorem exists_read_whole : ∃ tail,
    Expr.read tokens = appendRest tail (Expr.read (Input.ofTokens tokens).body) ∧
    ∀ rest, (rest ++ tail).headD (Input.missingEof tokens) =
      rest.headD (Input.ofTokens tokens).close := by
  obtain ⟨tail, htokens, htail, hclose⟩ := exists_tail tokens
  have hread := halts_readChain (halts_operand maxNesting) tail htail (Input.ofTokens tokens).body
  rw [← htokens] at hread
  exact ⟨tail, hread, fun rest => by rw [headD_append, hclose]⟩

theorem parse_eq_read : parse tokens =
    match Expr.read tokens with
    | .error fault => .error ⟨fault.cause, fault.rest.headD (Input.missingEof tokens)⟩
    | .ok front => .ok front.expr := by
  obtain ⟨tail, hread, hnext⟩ := exists_read_whole tokens
  rw [parse, hread]
  cases Expr.read (Input.ofTokens tokens).body with
  | error fault =>
    dsimp only [appendRest]
    rw [hnext]
    rfl
  | ok front => rfl

theorem parseComplete_eq_read : parseComplete tokens =
    match Expr.read tokens with
    | .error fault => .error ⟨fault.cause, fault.rest.headD (Input.missingEof tokens)⟩
    | .ok front =>
      let next := front.rest.headD (Input.missingEof tokens)
      if next.isEof then .ok front.expr else .error ⟨.expectedEof, next⟩ := by
  obtain ⟨tail, hread, hnext⟩ := exists_read_whole tokens
  obtain ⟨e, hbody, hparse⟩ | ⟨fault, hbody, hparse⟩ | ⟨e, t, rest, hbody, hparse⟩ :=
    parseComplete_cases tokens
  · have hclose : (Input.ofTokens tokens).close.isEof = true := isEof_of_kind (kind_close tokens)
    simp only [hparse, hread, hbody, appendRest, hnext, List.headD_nil, hclose, if_true]
  · simp only [hparse, hread, hbody, appendRest, hnext]
    rfl
  · have hnot : t.isEof = false := by
      obtain ⟨used, hused, -⟩ := read_eq_ok_iff.mp hbody
      have hmem : t ∈ (Input.ofTokens tokens).body := by
        rw [hused]
        simp
      simpa using List.mem_takeWhile_imp hmem
    simp only [hparse, hread, hbody, appendRest, hnext, List.headD_cons, hnot]
    rfl

end Whole

-- Parsing looks at nothing behind the first end of input, and makes up for one that is missing behind
-- the last token. No call goes over one, so that the list could as well be read as it is.
theorem input_ends_at_first_eof (tokens : List Token) :
    (∀ k t, tokens[k]? = some t → t.isEof = true →
      parse (tokens.take (k + 1)) = parse tokens ∧
        parseComplete (tokens.take (k + 1)) = parseComplete tokens) ∧
    (∀ last, tokens.getLast? = some last → last.isEof = false →
      let supplied := tokens ++ [.eofAt last.span.stop]
      parse supplied = parse tokens ∧ parseComplete supplied = parseComplete tokens) ∧
    (parse [.eofAt (.start "")] = parse [] ∧
      parseComplete [.eofAt (.start "")] = parseComplete []) ∧
    (∀ room, StaysInside (operand room).read ∧ StaysInside (readChain (operand room))) ∧
    (parse tokens = match Expr.read tokens with
      | .error fault => .error ⟨fault.cause, fault.rest.headD (Input.missingEof tokens)⟩
      | .ok front => .ok front.expr) ∧
    (parseComplete tokens = match Expr.read tokens with
      | .error fault => .error ⟨fault.cause, fault.rest.headD (Input.missingEof tokens)⟩
      | .ok front =>
        let next := front.rest.headD (Input.missingEof tokens)
        if next.isEof then .ok front.expr else .error ⟨.expectedEof, next⟩) := by
  have hsame {others : List Token} (h : Input.ofTokens others = Input.ofTokens tokens) :
      parse others = parse tokens ∧ parseComplete others = parseComplete tokens := by
    rw [parse, parse, parseComplete, parseComplete, h]
    exact ⟨rfl, rfl⟩
  refine ⟨?_, ?_, ⟨rfl, rfl⟩, fun room => ⟨staysInside_operand room, staysInside_readChain room⟩,
    parse_eq_read tokens, parseComplete_eq_read tokens⟩
  · intro k t ht heof
    have hmem : t ∈ tokens.take (k + 1) := by
      apply List.mem_of_getElem?
      rw [List.getElem?_take_of_lt (Nat.lt_succ_self k)]
      exact ht
    have hcut := Input.ofTokens_append_of_eof ⟨t, hmem, heof⟩ (tokens.drop (k + 1))
    rw [List.take_append_drop] at hcut
    exact hsame hcut.symm
  · intro last hlast hnot
    apply hsame
    by_cases heof : ∃ t ∈ tokens, t.isEof = true
    · exact Input.ofTokens_append_of_eof heof _
    · have hplain : ∀ t ∈ tokens, t.isEof = false := by simpa using heof
      have hmissing : Input.missingEof tokens = .eofAt last.span.stop := by
        rw [Input.missingEof, hlast]
      rw [← hmissing]
      exact Input.ofTokens_append_missingEof hplain

end Grammar

end Lox
