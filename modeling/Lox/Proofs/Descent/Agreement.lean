import Lox.Proofs.Descent.Chain
import Lox.Proofs.Descent.Progress

namespace Lox.Descent

open Lox.Expr

section Rest

variable {tokens more : List Token} {t : Token} {index : Nat}

-- The tokens that are still to be read from an index on.
def rest (tokens : List Token) (index : Nat) : List Token := (Input.ofTokens tokens).body.drop index

theorem length_body (tokens : List Token) :
    (Input.ofTokens tokens).body.length = tokens.findIdx Token.isEof := by
  rw [Grammar.body_eq_take, List.length_take, Nat.min_eq_left List.findIdx_le_length]

theorem peek_of_rest_cons (h : rest tokens index = t :: more) :
    peek tokens index = t ∧ index + 1 ≤ tokens.findIdx Token.isEof ∧
      rest tokens (index + 1) = more := by
  have hget : (Input.ofTokens tokens).body[index]? = some t := by
    rw [← List.head?_drop]
    exact congrArg List.head? h
  obtain ⟨tail, htokens, -, -⟩ := Grammar.exists_tail tokens
  have hlt : index < (Input.ofTokens tokens).body.length := (List.getElem?_eq_some_iff.mp hget).1
  have hpeek : tokens[index]? = some t := by
    rw [htokens, List.getElem?_append_left hlt, hget]
  refine ⟨by rw [peek, hpeek, Option.getD_some], length_body tokens ▸ hlt, ?_⟩
  rw [rest, ← List.tail_drop]
  exact congrArg List.tail h

theorem standIn_eq_missingEof (h : ∀ t ∈ tokens, t.isEof = false) :
    standIn tokens = Input.missingEof tokens := by
  unfold standIn Input.missingEof
  cases hlast : tokens.getLast? with
  | none => rfl
  | some last => simp [h last (List.mem_of_getLast? hlast)]

-- Behind the last token that is read there is the end of input, or what stands for it.
theorem peek_of_rest_nil (h : rest tokens index = []) (hindex : index ≤ tokens.findIdx Token.isEof) :
    peek tokens index = (Input.ofTokens tokens).close := by
  have hle : (Input.ofTokens tokens).body.length ≤ index := List.drop_eq_nil_iff.mp h
  obtain rfl : index = (Input.ofTokens tokens).body.length := by
    rw [length_body] at hle ⊢
    omega
  obtain ⟨tail, htokens, -, hclose⟩ := Grammar.exists_tail tokens
  have hget {body : List Token} (h : tokens = body ++ tail) : tokens[body.length]? = tail.head? := by
    rw [h, List.getElem?_append_right (Nat.le_refl _), Nat.sub_self, List.head?_eq_getElem?]
  rw [peek, hget htokens, hclose]
  cases tail with
  | cons t tail => rfl
  | nil =>
    rw [List.append_nil] at htokens
    apply standIn_eq_missingEof
    rw [htokens]
    intro t ht
    simpa using List.mem_takeWhile_imp ht

theorem data_close (tokens : List Token) : (Input.ofTokens tokens).close.data = .eof :=
  data_of_isEof (isEof_of_kind (Grammar.kind_close tokens))

end Rest

-- What a machine comes to for the caller with these frames, where reading from the same tokens gives a
-- result.
def ComesTo (tokens : List Token) (m : Machine) (frames : List Frame) (depth : Nat) :
    Except Fault Front → Prop
  | .ok front => ∃ count index, index ≤ tokens.findIdx Token.isEof ∧
      rest tokens index = front.rest ∧
      (step tokens)^[count] m = ⟨.back (.ok front.expr), frames, index, depth⟩
  | .error fault => ∃ count index, (step tokens)^[count] m =
      ⟨.back (.error ((Input.ofTokens tokens).error fault)), frames, index, depth⟩

section Runs

variable {tokens : List Token} {m n : Machine} {frame : Frame} {frames : List Frame}
  {index depth : Nat} {result : Except Fault Front} {front : Front} {fault : Fault}

theorem comesTo_ok (hindex : index ≤ tokens.findIdx Token.isEof)
    (hrest : rest tokens index = front.rest) :
    ComesTo tokens ⟨.back (.ok front.expr), frames, index, depth⟩ frames depth (.ok front) :=
  ⟨0, index, hindex, hrest, rfl⟩

theorem comesTo_error {error : ParseError} (h : error = (Input.ofTokens tokens).error fault) :
    ComesTo tokens ⟨.back (.error error), frames, index, depth⟩ frames depth (.error fault) :=
  ⟨0, index, by rw [h]; rfl⟩

theorem ComesTo.of_leads (h : ComesTo tokens n frames depth result) (hm : Leads tokens m n) :
    ComesTo tokens m frames depth result := by
  have hstep := hm.step_eq
  subst hstep
  cases result with
  | ok front =>
    obtain ⟨count, index, hindex, hrest, hrun⟩ := h
    exact ⟨count + 1, index, hindex, hrest, hrun⟩
  | error fault =>
    obtain ⟨count, index, hrun⟩ := h
    exact ⟨count + 1, index, hrun⟩

-- Behind a call its caller goes on where the call has come to.
theorem ComesTo.andThen {more : List Frame} {depth' : Nat}
    (h : ComesTo tokens m frames depth (.ok front))
    (hnext : ∀ index ≤ tokens.findIdx Token.isEof, rest tokens index = front.rest →
      ComesTo tokens ⟨.back (.ok front.expr), frames, index, depth⟩ more depth' result) :
    ComesTo tokens m more depth' result := by
  obtain ⟨count, index, hindex, hrest, hrun⟩ := h
  have hgo := hnext index hindex hrest
  clear hnext
  induction count generalizing m with
  | zero =>
    obtain rfl : m = _ := hrun
    exact hgo
  | succ count ih => exact (ih hrun).of_leads (leads_step tokens m)

theorem ComesTo.orFail {more : List Frame} {depth' : Nat}
    (h : ComesTo tokens m frames depth (.error fault))
    (hnext : ∀ index, Leads tokens
      ⟨.back (.error ((Input.ofTokens tokens).error fault)), frames, index, depth⟩
      ⟨.back (.error ((Input.ofTokens tokens).error fault)), more, index, depth'⟩) :
    ComesTo tokens m more depth' (.error fault) := by
  obtain ⟨count, index, hrun⟩ := h
  refine ⟨count + 1, index, ?_⟩
  rw [Function.iterate_succ_apply', hrun, (hnext index).step_eq]

theorem ComesTo.fail (h : ComesTo tokens m (frame :: frames) depth (.error fault))
    (hframe : frame.isLevel = false) : ComesTo tokens m frames depth (.error fault) :=
  h.orFail fun _ => .fail hframe

theorem ComesTo.same (h : ComesTo tokens m (.same :: frames) depth result) :
    ComesTo tokens m frames depth result := by
  cases result with
  | error fault => exact h.fail rfl
  | ok front => exact h.andThen fun index hindex hrest => (comesTo_ok hindex hrest).of_leads .same

theorem ComesTo.leave (h : ComesTo tokens m (.level :: frames) (depth + 1) result) :
    ComesTo tokens m frames depth result := by
  cases result with
  | error fault => exact h.orFail fun _ => .leave
  | ok front => exact h.andThen fun index hindex hrest => (comesTo_ok hindex hrest).of_leads .leave

end Runs

-- A routine that comes to what a reader gives, wherever it is called at some depth.
def Serves (tokens : List Token) (routine : Routine) (depth : Nat)
    (read : List Token → Except Fault Front) : Prop :=
  ∀ frames, ∀ index ≤ tokens.findIdx Token.isEof,
    ComesTo tokens ⟨.call routine, frames, index, depth⟩ frames depth (read (rest tokens index))

section Chain

variable {tokens : List Token} {rank : Rank} {operand reader : Reader} {depth limit : Nat}

theorem comesTo_loop (h : Serves tokens (operandOf rank) depth reader.read) {left : Front}
    {frames : List Frame} {index : Nat} (hindex : index ≤ tokens.findIdx Token.isEof)
    (hleft : rest tokens index = left.rest) :
    ComesTo tokens ⟨.loop rank left.expr, frames, index, depth⟩ frames depth
      (extendRank rank reader left) := by
  fun_induction extendRank rank reader left generalizing index with
  | case1 left hrest =>
    have hpeek := peek_of_rest_nil (hleft.trans hrest) hindex
    have hrank : (peek tokens index).data.rank? ≠ some rank := by
      rw [hpeek, data_close]
      rintro ⟨⟩
    exact (comesTo_ok hindex hleft).of_leads (.complete hrank)
  | case2 left operator more hrest hrank fault hright =>
    obtain ⟨hpeek, hnext, hmore⟩ := peek_of_rest_cons (hleft.trans hrest)
    have hcall := h (.further rank left.expr operator :: frames) (index + 1) hnext
    rw [hmore, hright] at hcall
    exact (hcall.fail rfl).of_leads (.operator hpeek hrank)
  | case3 left operator more hrest hrank right hright ih =>
    obtain ⟨hpeek, hnext, hmore⟩ := peek_of_rest_cons (hleft.trans hrest)
    have hcall := h (.further rank left.expr operator :: frames) (index + 1) hnext
    rw [hmore, hright] at hcall
    have hturn := hcall.andThen fun index hindex hrest => (ih hindex hrest).of_leads .further
    exact hturn.of_leads (.operator hpeek hrank)
  | case4 left operator more hrest hrank =>
    obtain ⟨hpeek, -⟩ := peek_of_rest_cons (hleft.trans hrest)
    exact (comesTo_ok hindex hleft).of_leads (.complete (by rwa [hpeek]))

theorem serves_chain (h : Serves tokens (operandOf rank) depth reader.read) :
    Serves tokens (.chain rank) depth (rankChain rank reader).read := by
  intro frames index hindex
  have hcall := h (.first rank :: frames) index hindex
  change ComesTo tokens _ _ _ (readRank rank reader (rest tokens index))
  rw [readRank]
  cases hread : reader.read (rest tokens index) with
  | error fault =>
    rw [hread] at hcall
    exact (hcall.fail rfl).of_leads .chain
  | ok left =>
    rw [hread] at hcall
    have hloop := hcall.andThen fun index hindex hrest =>
      (comesTo_loop h hindex hrest).of_leads .first
    exact hloop.of_leads .chain

theorem serves_operandOf (h : Serves tokens .unary depth operand.read) (rank : Rank) :
    Serves tokens (operandOf rank) depth (operandReader operand rank).read := by
  fun_induction operandReader operand rank with
  | case1 => exact h
  | case2 ih | case3 ih | case4 ih => exact serves_chain ih

theorem serves_expression (exact : Grammar.Exact operand limit)
    (h : Serves tokens .unary depth operand.read) :
    Serves tokens .expression depth (readChain operand) := by
  intro frames index hindex
  have hchain : Serves tokens (.chain .equality) depth (chainReader operand .equality).read :=
    serves_chain (serves_operandOf h .equality)
  rw [← read_chainReader exact]
  exact (hchain (.same :: frames) index hindex).same.of_leads .expression

end Chain

section Operand

variable {tokens : List Token} {depth : Nat}

-- A call behind an opener, where there is room for one more level.
theorem Serves.comesTo_enter {routine : Routine} {read : List Token → Except Fault Front}
    (h : Serves tokens routine (depth + 1) read) (hdepth : depth ≠ maxNesting) (opener : Token)
    (frames : List Frame) {index : Nat} (hindex : index ≤ tokens.findIdx Token.isEof) :
    ComesTo tokens ⟨.enter opener routine, frames, index, depth⟩ frames depth
      (read (rest tokens index)) :=
  (h (.level :: frames) index hindex).leave.of_leads (.deeper hdepth)

section Openers

variable {token : Token} {remaining : List Token} {frames : List Frame} {index : Nat}
  {result : Except Fault Front}

theorem comesTo_of_primary (hunary : (peek tokens index).data.isUnary = false)
    (h : ∀ frames, ComesTo tokens ⟨.call .primary, frames, index, depth⟩ frames depth result) :
    ComesTo tokens ⟨.call .unary, frames, index, depth⟩ frames depth result :=
  (h (.same :: frames)).same.of_leads (.primary hunary)

variable (hpeek : peek tokens index = token)
  (hfault : remaining.headD (Input.ofTokens tokens).close = token)

include hpeek hfault

theorem comesTo_foreign (hopens : ¬ Opens token) (hvalue : token.data.literal? = none) :
    ComesTo tokens ⟨.call .unary, frames, index, depth⟩ frames depth
      (.error ⟨.expectedExpression, remaining⟩) := by
  obtain ⟨hunary, hparen⟩ := not_or.mp hopens
  rw [Bool.not_eq_true, ← hpeek] at hunary
  apply comesTo_of_primary hunary
  intro frames
  exact (comesTo_error (by rw [Input.error, hfault])).of_leads (.foreign hpeek hparen hvalue)

theorem comesTo_tooDeep (hopens : Opens token) (hdepth : depth = maxNesting) :
    ComesTo tokens ⟨.call .unary, frames, index, depth⟩ frames depth
      (.error ⟨.nestingTooDeep, remaining⟩) := by
  have henter (routine : Routine) (frames : List Frame) :
      ComesTo tokens ⟨.enter token routine, frames, index + 1, depth⟩ frames depth
        (.error ⟨.nestingTooDeep, remaining⟩) :=
    (comesTo_error (by rw [Input.error, hfault])).of_leads (.tooDeep hdepth)
  rcases hopens with hunary | hparen
  · exact ((henter .unary _).fail rfl).of_leads (.unary hpeek hunary)
  · apply comesTo_of_primary (by rw [hpeek, not_isUnary_of_leftParen hparen])
    intro frames
    exact ((henter .expression _).fail rfl).of_leads (.leftParen hpeek hparen)

end Openers

-- Behind the expression in a group there has to be the other parenthesis.
theorem comesTo_closeGroup {inner : Front} {frames : List Frame} {index : Nat}
    (hindex : index ≤ tokens.findIdx Token.isEof) (hrest : rest tokens index = inner.rest) :
    ComesTo tokens ⟨.back (.ok inner.expr), .group :: frames, index, depth⟩ frames depth
      (readOperand.closeGroup inner) := by
  unfold readOperand.closeGroup
  split
  · rename_i hnil
    have hpeek := peek_of_rest_nil (hrest.trans hnil) hindex
    have hcloser : (Input.ofTokens tokens).close.kind ≠ .symbol .rightParen := by
      rw [Token.kind, data_close]
      rintro ⟨⟩
    exact (comesTo_error rfl).of_leads (.unclosed hpeek hcloser)
  · rename_i closer more hcons
    obtain ⟨hpeek, hnext, hmore⟩ := peek_of_rest_cons (hrest.trans hcons)
    split
    · rename_i hcloser
      exact (comesTo_ok hnext hmore).of_leads (.close (by rwa [hpeek]))
    · rename_i hcloser
      exact (comesTo_error rfl).of_leads (.unclosed hpeek hcloser)

section Deeper

variable {operand : Reader} {limit : Nat} {token : Token} {frames : List Frame} {index : Nat}
  (hserves : Serves tokens .unary (depth + 1) operand.read) (hdepth : depth ≠ maxNesting)
  (hpeek : peek tokens index = token) (hnext : index + 1 ≤ tokens.findIdx Token.isEof)

include hserves hdepth hpeek hnext

theorem comesTo_operator (hunary : token.data.isUnary = true) :
    ComesTo tokens ⟨.call .unary, frames, index, depth⟩ frames depth
      (readOperand (some operand) (token :: rest tokens (index + 1))) := by
  have hcall := hserves.comesTo_enter hdepth token (.negate token :: frames) hnext
  simp only [readOperand, hunary, if_true]
  cases hread : operand.read (rest tokens (index + 1)) with
  | error fault =>
    rw [hread] at hcall
    exact (hcall.fail rfl).of_leads (.unary hpeek hunary)
  | ok inner =>
    rw [hread] at hcall
    apply ComesTo.of_leads _ (.unary hpeek hunary)
    apply hcall.andThen
    intro index hindex hrest
    exact ComesTo.of_leads (comesTo_ok hindex hrest) .negate

theorem comesTo_leftParen (exact : Grammar.Exact operand limit)
    (hparen : token.kind = .symbol .leftParen) :
    ComesTo tokens ⟨.call .unary, frames, index, depth⟩ frames depth
      (readOperand (some operand) (token :: rest tokens (index + 1))) := by
  have hunary := not_isUnary_of_leftParen hparen
  apply comesTo_of_primary (by rw [hpeek, hunary])
  intro frames
  have hcall := (serves_expression exact hserves).comesTo_enter hdepth token (.group :: frames) hnext
  simp only [readOperand, hunary, hparen, if_true]
  cases hread : readChain operand (rest tokens (index + 1)) with
  | error fault =>
    rw [hread] at hcall
    exact (hcall.fail rfl).of_leads (.leftParen hpeek hparen)
  | ok inner =>
    rw [hread] at hcall
    have hgroup := hcall.andThen fun index hindex hrest => comesTo_closeGroup hindex hrest
    exact hgroup.of_leads (.leftParen hpeek hparen)

end Deeper

theorem comesTo_literal {token : Token} {value : Literal} {more : List Token} {frames : List Frame}
    {index : Nat} (hpeek : peek tokens index = token)
    (hnext : index + 1 ≤ tokens.findIdx Token.isEof) (hmore : rest tokens (index + 1) = more)
    (hvalue : token.data.literal? = some value) :
    ComesTo tokens ⟨.call .unary, frames, index, depth⟩ frames depth
      (.ok ⟨.literal value, more⟩) := by
  apply comesTo_of_primary (by rw [hpeek, (not_opens_of_literal? hvalue).1])
  intro frames
  exact (comesTo_ok hnext hmore).of_leads (.literal (by rwa [hpeek]))

-- Reading an operand goes the way of the routines: with an opener, with a value, or with neither.
theorem serves_readOperand {deeper : Option Reader} {room : Nat}
    (hbelow : Grammar.Below deeper room) (hroom : depth + room = maxNesting)
    (hserves : ∀ operand less, deeper = some operand → room = less + 1 →
      Serves tokens .unary (depth + 1) operand.read) :
    Serves tokens .unary depth (readOperand deeper) := by
  intro frames index hindex
  cases hrest : rest tokens index with
  | nil =>
    have hpeek := peek_of_rest_nil hrest hindex
    have hdata := data_close tokens
    have hopens : ¬ Opens (Input.ofTokens tokens).close := by
      simp [Opens, Token.kind, hdata, TokenData.isUnary, TokenData.kind]
    exact comesTo_foreign hpeek rfl hopens (by rw [hdata]; rfl)
  | cons token more =>
    obtain ⟨hpeek, hnext, hmore⟩ := peek_of_rest_cons hrest
    by_cases hopens : Opens token
    · cases deeper with
      | none =>
        rw [readOperand_eq_of_outcome (.tooDeep hopens rfl)]
        have hfull : depth = maxNesting := by
          cases room with
          | zero => exact hroom
          | succ less =>
            obtain ⟨_, hsome, -⟩ := hbelow
            cases hsome
        exact comesTo_tooDeep hpeek rfl hopens hfull
      | some operand =>
        obtain ⟨less, rfl, hexact⟩ := hbelow.exact_of_some
        have hinner := hserves operand less rfl rfl
        have hdepth : depth ≠ maxNesting := by omega
        rw [← hmore]
        rcases hopens with hunary | hparen
        · exact comesTo_operator hinner hdepth hpeek hnext hunary
        · exact comesTo_leftParen hinner hdepth hpeek hnext hexact hparen
    · cases hvalue : token.data.literal? with
      | some value =>
        rw [readOperand_eq_of_outcome (.literal hvalue)]
        exact comesTo_literal hpeek hnext hmore hvalue
      | none =>
        rw [readOperand_eq_of_outcome (.foreign hopens hvalue)]
        exact comesTo_foreign hpeek rfl hopens hvalue

theorem serves_operand (depth room : Nat) (hroom : depth + room = maxNesting) :
    Serves tokens .unary depth (operand room).read := by
  induction room generalizing depth with
  | zero =>
    have hbelow : Grammar.Below none 0 := rfl
    exact serves_readOperand hbelow hroom (by rintro _ _ ⟨⟩)
  | succ room ih =>
    have hbelow : Grammar.Below (some (operand room)) (room + 1) := ⟨_, rfl, Grammar.exact_operand room⟩
    apply serves_readOperand hbelow hroom
    rintro _ _ ⟨⟩ ⟨⟩
    exact ih (depth + 1) (by omega)

theorem serves_read (tokens : List Token) : Serves tokens .expression 0 Expr.read :=
  serves_expression (Grammar.exact_operand maxNesting) (serves_operand 0 maxNesting (Nat.zero_add _))

end Operand

section Parse

theorem rest_zero (tokens : List Token) : rest tokens 0 = (Input.ofTokens tokens).body := rfl

theorem exists_parse (tokens : List Token) :
    ∃ count index, (step tokens)^[count] (start false) = ⟨.back (parse tokens), [], index, 0⟩ := by
  have hcall := serves_read tokens [] 0 (Nat.zero_le _)
  rw [rest_zero] at hcall
  rw [parse]
  cases hread : Expr.read (Input.ofTokens tokens).body with
  | error fault =>
    rw [hread] at hcall
    exact hcall
  | ok found =>
    rw [hread] at hcall
    obtain ⟨count, index, -, -, hrun⟩ := hcall
    exact ⟨count, index, hrun⟩

theorem kind_ne_of_rest_cons {tokens more : List Token} {t : Token} {index : Nat}
    (h : rest tokens index = t :: more) : t.kind ≠ .eof := by
  intro heof
  have hmem : t ∈ rest tokens index := by simp [h]
  exact Grammar.eof_notMem_body tokens (heof ▸ List.mem_map_of_mem (List.mem_of_mem_drop hmem))

theorem exists_parseComplete (tokens : List Token) :
    ∃ count index, (step tokens)^[count] (start true) =
      ⟨.back (parseComplete tokens), [], index, 0⟩ := by
  have hcall := serves_read tokens [.whole] 0 (Nat.zero_le _)
  rw [rest_zero] at hcall
  obtain ⟨e, hread, hresult⟩ | ⟨fault, hread, hresult⟩ | ⟨e, t, behind, hread, hresult⟩ :=
    parseComplete_cases tokens
  · rw [hread] at hcall
    obtain ⟨count, index, hindex, hrest, hrun⟩ := hcall
    have hpeek := peek_of_rest_nil hrest hindex
    have hused : Leads tokens ⟨.back (.ok e), [.whole], index, 0⟩ ⟨.back (.ok e), [], index, 0⟩ :=
      .used (by rw [hpeek, Grammar.kind_close])
    refine ⟨count + 1, index, ?_⟩
    rw [Function.iterate_succ_apply', hresult]
    exact (congrArg (step tokens) hrun).trans hused.step_eq
  · rw [hread] at hcall
    rw [hresult]
    exact hcall.fail rfl
  · rw [hread] at hcall
    obtain ⟨count, index, hindex, hrest, hrun⟩ := hcall
    have hpeek := (peek_of_rest_cons hrest).1
    have htrailing : Leads tokens ⟨.back (.ok e), [.whole], index, 0⟩
        ⟨.back (.error ⟨.expectedEof, t⟩), [], index, 0⟩ :=
      .trailing hpeek (kind_ne_of_rest_cons hrest)
    refine ⟨count + 1, index, ?_⟩
    rw [Function.iterate_succ_apply', hresult]
    exact (congrArg (step tokens) hrun).trans htrailing.step_eq

theorem size_start (tokens : List Token) (complete : Bool) :
    (start complete).size tokens ≤ 24 * tokens.length + 21 := by
  cases complete <;> simp [start, Machine.size, Control.weight, Routine.reach]

-- A parse that comes to a result at some time comes to it in time.
theorem exists_le_of_result {tokens : List Token} {complete : Bool} {result : Except ParseError Expr}
    (h : ∃ count index, (step tokens)^[count] (start complete) = ⟨.back result, [], index, 0⟩) :
    ∃ count ≤ 24 * tokens.length + 21, ∃ index,
      (step tokens)^[count] (start complete) = ⟨.back result, [], index, 0⟩ := by
  obtain ⟨other, index, hother⟩ := h
  obtain ⟨count, hcount, hfinished⟩ := exists_finished tokens (start complete)
  have hover : ((step tokens)^[other] (start complete)).Finished := by
    rw [hother]
    exact ⟨rfl, result, rfl⟩
  refine ⟨count, hcount.trans (size_start tokens complete), index, ?_⟩
  rw [eq_of_finished hfinished hover, hother]

-- In every state of a parse no end of input has been gone over, and the depth is the number of
-- levels that are open. Every call comes back, at the depth at which it was made, and with a tree
-- only behind a token; a turn of a loop, which is an operator and its right operand, takes two
-- tokens. So a parse is over after a number of steps that the tokens bound, and it comes to what
-- reading them comes to.
theorem every_state_accounted (tokens : List Token) :
    (∀ m, Reached tokens m →
      m.index ≤ tokens.length ∧ m.index ≤ tokens.findIdx Token.isEof ∧
      (∀ count, m.index ≤ ((step tokens)^[count] m).index) ∧
      ((peek tokens m.index).isEof = true →
        ∀ count, ((step tokens)^[count] m).index = m.index) ∧
      m.depth = m.frames.countP Frame.isLevel ∧ m.depth ≤ 128 ∧
      (∀ routine, m.control = .call routine →
        (∃ count result, Completes tokens m count result) ∧
        ∀ count result, Completes tokens m count result →
          ((step tokens)^[count] m).depth = m.depth ∧
          ∀ e, result = .ok e → m.index + 1 ≤ ((step tokens)^[count] m).index) ∧
      ∀ rank left, m.control = .loop rank left →
        ((peek tokens m.index).data.rank? = some rank → ∀ count right,
          Completes tokens (step tokens m) count (.ok right) → Turn tokens m (count + 2)) ∧
        ∀ count, Turn tokens m count → m.index + 2 ≤ ((step tokens)^[count] m).index) ∧
    (∃ count ≤ 24 * tokens.length + 21, ∃ index,
      (step tokens)^[count] (start false) = ⟨.back (parse tokens), [], index, 0⟩) ∧
    ∃ count ≤ 24 * tokens.length + 21, ∃ index,
      (step tokens)^[count] (start true) = ⟨.back (parseComplete tokens), [], index, 0⟩ := by
  refine ⟨?_, exists_le_of_result (exists_parse tokens),
    exists_le_of_result (exists_parseComplete tokens)⟩
  intro m hm
  have hsound := hm.sound
  refine ⟨hsound.inside.trans List.findIdx_le_length, hsound.inside, index_le_iterate tokens m,
    index_eq_of_peek, hsound.depth, hsound.limit, ?_, ?_⟩
  · intro routine hroutine
    refine ⟨exists_completes tokens m, ?_⟩
    intro count result hcompletes
    refine ⟨hcompletes.depth_eq hm, ?_⟩
    rintro e rfl
    exact hcompletes.index_lt hroutine
  · intro rank left hloop
    refine ⟨fun hrank count right hcompletes => hcompletes.turn hloop hrank, ?_⟩
    intro count hturn
    exact hturn.add_two_le hloop

end Parse

end Lox.Descent
