import Lox.Proofs.Grammar.Fault
import Mathlib.Data.List.TakeWhile

namespace Lox

-- The tokens that are looked at, with the one that shows the end of input.
def Input.tokens (input : Input) : List Token := input.body ++ [input.close]

namespace Grammar

open Lox.Expr

-- The kinds of the tokens of a whole expression, and of the end of input behind them.
def Sentence (kinds : List Kind) : Prop :=
  ∃ tokens e, Derives .expression tokens e ∧ e.nesting ≤ 128 ∧
    kinds = tokens.map Token.kind ++ [.eof]

-- Kinds of tokens that can go on to be a sentence.
def Viable (kinds : List Kind) : Prop := ∃ sentence, Sentence sentence ∧ kinds <+: sentence

theorem Viable.of_prefix {kinds more : List Kind} (h : Viable more) (hfirst : kinds <+: more) :
    Viable kinds := by
  obtain ⟨sentence, hsentence, hmore⟩ := h
  exact ⟨sentence, hsentence, hfirst.trans hmore⟩

theorem Completable.viable {tokens : List Token} (h : Completable .expression 128 tokens) :
    Viable (tokens.map Token.kind) := by
  obtain ⟨more, e, hderives, hnesting⟩ := h
  refine ⟨_, ⟨tokens ++ more, e, hderives, hnesting, rfl⟩, more.map Token.kind ++ [.eof], ?_⟩
  simp

theorem Denotes.of_kind {t other : Token} {value : Literal} (h : Denotes t.data value)
    (hkind : other.kind = t.kind) : ∃ value', Denotes other.data value' := by
  obtain ⟨data, span⟩ := t
  obtain ⟨data', span'⟩ := other
  cases h <;> cases data' <;> cases hkind
  · exact ⟨_, .number _⟩
  · exact ⟨_, .str _⟩
  · exact ⟨_, .trueKw⟩
  · exact ⟨_, .falseKw⟩
  · exact ⟨_, .nilKw⟩

-- The grammar looks only at the kinds of tokens. Others of the same kinds make a tree of the same
-- shape.
theorem Derives.of_map_kind {p : Phrase} {tokens others : List Token} {e : Expr}
    (h : Derives p tokens e) (hkinds : others.map Token.kind = tokens.map Token.kind) :
    ∃ e', Derives p others e' ∧ e'.nesting = e.nesting := by
  induction h generalizing others with
  | single h ih =>
    obtain ⟨e', hderives, hnesting⟩ := ih hkinds
    exact ⟨e', .single hderives, hnesting⟩
  | primary h ih =>
    obtain ⟨e', hderives, hnesting⟩ := ih hkinds
    exact ⟨e', .primary hderives, hnesting⟩
  | @binary rank lefts rights operator s l r hl hk hs hr ihl ihr =>
    rw [List.map_append, List.map_cons] at hkinds
    obtain ⟨lefts', others', rfl, hlefts, hothers⟩ := List.map_eq_append_iff.mp hkinds
    obtain ⟨operator', rights', rfl, hoperator, hrights⟩ := List.map_eq_cons_iff.mp hothers
    obtain ⟨l', hl', hnestingl⟩ := ihl hlefts
    obtain ⟨r', hr', hnestingr⟩ := ihr hrights
    refine ⟨_, .binary hl' (hoperator.trans hk) hs hr', ?_⟩
    rw [nesting_binary, nesting_binary, hnestingl, hnestingr]
  | @unary tokens operator s e hk hs h ih =>
    obtain ⟨operator', tokens', rfl, hoperator, htokens⟩ := List.map_eq_cons_iff.mp hkinds
    obtain ⟨e', hderives, hnesting⟩ := ih htokens
    exact ⟨_, .unary (hoperator.trans hk) hs hderives, congrArg (· + 1) hnesting⟩
  | @literal token value h =>
    obtain ⟨token', rest, rfl, htoken, hrest⟩ := List.map_eq_cons_iff.mp hkinds
    obtain ⟨value', hvalue⟩ := h.of_kind htoken
    rw [List.map_eq_nil_iff.mp hrest]
    exact ⟨_, .literal hvalue, rfl⟩
  | @grouping tokens opener closer e ho h hc ih =>
    obtain ⟨opener', others', rfl, hopener, hothers⟩ := List.map_eq_cons_iff.mp hkinds
    rw [List.map_append] at hothers
    obtain ⟨tokens', last, rfl, htokens, hlast⟩ := List.map_eq_append_iff.mp hothers
    obtain ⟨closer', rest, rfl, hcloser, hrest⟩ := List.map_eq_cons_iff.mp hlast
    obtain ⟨e', hderives, hnesting⟩ := ih htokens
    rw [List.map_eq_nil_iff.mp hrest]
    exact ⟨_, .grouping (hopener.trans ho) hderives (hcloser.trans hc), congrArg (· + 1) hnesting⟩

theorem eof_notMem_of_derives {p : Phrase} {tokens : List Token} {e : Expr}
    (h : Derives p tokens e) : .eof ∉ tokens.map Token.kind := by
  induction h with
  | single h ih | primary h ih => exact ih
  | binary hl hk hs hr ihl ihr => simp_all
  | unary hk hs h ih => simp_all
  | @literal token value h =>
    obtain ⟨data, span⟩ := token
    cases h <;> simp [Token.kind, TokenData.kind]
  | grouping ho h hc ih => simp_all

-- A viable front without the end of input goes on to an expression that begins with these tokens.
theorem Viable.exists_derives {tokens : List Token} (h : Viable (tokens.map Token.kind))
    (heof : .eof ∉ tokens.map Token.kind) :
    ∃ more e, Derives .expression (tokens ++ more) e ∧ e.nesting ≤ 128 := by
  obtain ⟨_, ⟨sentence, e, hderives, hnesting, rfl⟩, hfirst⟩ := h
  rcases List.prefix_concat_iff.mp hfirst with hall | hfirst
  · rw [hall] at heof
    simp at heof
  · obtain ⟨more, hmore⟩ := hfirst
    obtain ⟨front, rest, rfl, hfront, -⟩ := List.map_eq_append_iff.mp hmore.symm
    have hkinds : (tokens ++ rest).map Token.kind = (front ++ rest).map Token.kind := by
      rw [List.map_append, List.map_append, hfront]
    obtain ⟨e', hderives', hnesting'⟩ := hderives.of_map_kind hkinds
    exact ⟨rest, e', hderives', hnesting' ▸ hnesting⟩

-- Tokens with the end of input behind them are viable only if they are an expression themselves.
theorem Viable.derives_of_eof {tokens : List Token}
    (h : Viable (tokens.map Token.kind ++ [.eof])) :
    ∃ e, Derives .expression tokens e ∧ e.nesting ≤ 128 := by
  obtain ⟨_, ⟨sentence, e, hderives, hnesting, rfl⟩, hfirst⟩ := h
  rcases List.prefix_concat_iff.mp hfirst with hall | hfirst
  · obtain ⟨e', hderives', hnesting'⟩ := hderives.of_map_kind (List.append_cancel_right hall)
    exact ⟨e', hderives', hnesting' ▸ hnesting⟩
  · have hmem : Kind.eof ∈ sentence.map Token.kind := hfirst.subset (by simp)
    exact absurd hmem (eof_notMem_of_derives hderives)

-- Where a parse fails, the tokens in front of the offending one can be completed. With the token
-- they are the beginning of no expression, whatever comes behind it.
theorem exists_of_parseComplete_error {tokens : List Token} {error : ParseError}
    (h : parseComplete tokens = .error error) :
    ∃ used rest, (Input.ofTokens tokens).body = used ++ rest ∧
      error.token = rest.headD (Input.ofTokens tokens).close ∧
      Completable .expression maxNesting used ∧
      ∀ more, more.head? = rest.head? →
        ¬ ∃ e, Derives .expression (used ++ more) e ∧ e.nesting ≤ maxNesting := by
  have hread {all : List Token} : (∃ e, Derives .expression all e ∧ e.nesting ≤ maxNesting) →
      ∃ e, Expr.read all = .ok ⟨e, []⟩ := by
    rintro ⟨e, hderives, hnesting⟩
    exact ⟨e, read_eq_ok_iff.mpr ⟨all, by simp, hderives, hnesting, by simp [Stops]⟩⟩
  obtain ⟨e, _, heq⟩ | ⟨fault, hfault, heq⟩ | ⟨e, t, rest, hfront, heq⟩ := parseComplete_cases tokens
  · rw [h] at heq
    cases heq
  · rw [h] at heq
    cases heq
    obtain ⟨used, hused, hcompletable, hmore⟩ := precise_read hfault
    refine ⟨used, fault.rest, hused, rfl, hcompletable, ?_⟩
    intro more hhead hderives
    obtain ⟨e, hok⟩ := hread hderives
    rw [hmore more hhead] at hok
    cases hok
  · rw [h] at heq
    cases heq
    obtain ⟨used, hused, hderives, hnesting, hstops⟩ := read_eq_ok_iff.mp hfront
    refine ⟨used, t :: rest, hused, rfl, ⟨[], e, by simpa using hderives, hnesting⟩, ?_⟩
    intro more hhead hlonger
    obtain ⟨rest', rfl⟩ := List.head?_eq_some_iff.mp hhead
    have hstops' : Stops (t :: rest') := hstops
    have hok : Expr.read (used ++ t :: rest') = .ok ⟨e, t :: rest'⟩ :=
      read_eq_ok_iff.mpr ⟨used, rfl, hderives, hnesting, hstops'⟩
    obtain ⟨e', hok'⟩ := hread hlonger
    rw [hok] at hok'
    cases hok'

theorem eof_notMem_body (tokens : List Token) :
    .eof ∉ (Input.ofTokens tokens).body.map Token.kind := by
  intro hmem
  obtain ⟨t, ht, hkind⟩ := List.mem_map.mp hmem
  have hnot := List.mem_takeWhile_imp ht
  obtain ⟨data, span⟩ := t
  cases data with
  | eof => cases hnot
  | _ => cases hkind

theorem kind_close (tokens : List Token) : (Input.ofTokens tokens).close.kind = .eof := by
  cases hfind : tokens.find? Token.isEof with
  | some t =>
    have hclose : (Input.ofTokens tokens).close = t := by simp [Input.ofTokens, hfind]
    have heof := List.find?_some hfind
    rw [hclose]
    obtain ⟨data, span⟩ := t
    cases data with
    | eof => rfl
    | _ => cases heof
  | none =>
    have hclose : (Input.ofTokens tokens).close = Input.missingEof tokens := by
      simp [Input.ofTokens, hfind]
    rw [hclose, Input.missingEof]
    cases tokens.getLast? <;> rfl

-- A front that goes on to no expression with the token behind it is not viable together with it.
theorem not_viable_of_hopeless {tokens used rest : List Token}
    (hbody : (Input.ofTokens tokens).body = used ++ rest)
    (hhopeless : ∀ more, more.head? = rest.head? →
      ¬ ∃ e, Derives .expression (used ++ more) e ∧ e.nesting ≤ maxNesting) :
    ¬ Viable ((used ++ [rest.headD (Input.ofTokens tokens).close]).map Token.kind) := by
  intro hviable
  cases rest with
  | nil =>
    have hclose : [(Input.ofTokens tokens).close].map Token.kind = [.eof] := by simp [kind_close]
    rw [List.headD_nil, List.map_append, hclose] at hviable
    obtain ⟨e, hderives, hnesting⟩ := hviable.derives_of_eof
    exact hhopeless [] rfl ⟨e, by simpa using hderives, hnesting⟩
  | cons t rest =>
    have heof : Kind.eof ∉ (used ++ [t]).map Token.kind := by
      have hnot := eof_notMem_body tokens
      rw [hbody] at hnot
      simp_all
    obtain ⟨more, e, hderives, hnesting⟩ := hviable.exists_derives heof
    exact hhopeless (t :: more) rfl ⟨e, by simpa using hderives, hnesting⟩

theorem parseComplete_error_of_parse {tokens : List Token} {error : ParseError}
    (h : parse tokens = .error error) : parseComplete tokens = .error error := by
  unfold parse at h
  cases hread : Expr.read (Input.ofTokens tokens).body with
  | ok front => simp [hread] at h
  | error fault =>
    simp only [hread] at h
    simp [parseComplete, hread, ← h]

-- The token that an error names is the first one with which the tokens cannot be completed any
-- more. An expression at the front of the tokens is missed with the very same error.
theorem error_at_first_hopeless (tokens : List Token) :
    (∀ error, parseComplete tokens = .error error →
      ∃ i, (Input.ofTokens tokens).tokens[i]? = some error.token ∧
        ∀ j ≤ (Input.ofTokens tokens).tokens.length,
          Viable (((Input.ofTokens tokens).tokens.take j).map Token.kind) ↔ j ≤ i) ∧
    (∀ error, parse tokens = .error error → parseComplete tokens = .error error) := by
  refine ⟨?_, fun error => parseComplete_error_of_parse⟩
  intro error h
  obtain ⟨used, rest, hbody, htoken, hcompletable, hhopeless⟩ := exists_of_parseComplete_error h
  let input := Input.ofTokens tokens
  have hall : input.tokens = used ++ (rest ++ [input.close]) := by
    rw [Input.tokens, hbody, List.append_assoc]
  have hnext : (rest ++ [input.close]).head? = some error.token := by
    rw [htoken]
    cases rest <;> rfl
  obtain ⟨behind, hbehind⟩ := List.head?_eq_some_iff.mp hnext
  have hbad : ¬ Viable ((used ++ [error.token]).map Token.kind) :=
    htoken ▸ not_viable_of_hopeless hbody hhopeless
  refine ⟨used.length, ?_, ?_⟩
  · rw [hall, hbehind]
    simp
  · intro j hj
    constructor
    · intro hviable
      by_contra hlt
      have hfirst : used ++ [error.token] <+: input.tokens.take j := by
        rw [List.prefix_take_iff, hall, hbehind]
        simp
        omega
      exact hbad (hviable.of_prefix (hfirst.map _))
    · intro hle
      have hfirst : input.tokens.take j <+: used := by
        rw [hall, List.take_append_of_le_length hle]
        exact List.take_prefix _ _
      exact hcompletable.viable.of_prefix (hfirst.map _)

-- One parenthesis too many is at fault itself, and none of those in front of it.
theorem error_at_first_hopeless_nesting :
    let opener : Token := .ofLexeme (.symbol .leftParen) "("
    let tokens := List.replicate 129 opener
    parseComplete tokens = .error ⟨.nestingTooDeep, opener⟩ ∧
      ∃ i, (Input.ofTokens tokens).tokens[i]? = some opener ∧
        ∀ j ≤ (Input.ofTokens tokens).tokens.length,
          Viable (((Input.ofTokens tokens).tokens.take j).map Token.kind) ↔ j ≤ i := by
  intro opener tokens
  have herror : parseComplete tokens = .error ⟨.nestingTooDeep, opener⟩ := by
    set_option maxRecDepth 10000 in rfl
  exact ⟨herror, (error_at_first_hopeless tokens).1 _ herror⟩

end Grammar

end Lox
