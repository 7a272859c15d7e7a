import Lox.Proofs.Grammar.Fault
import Mathlib.Data.List.TakeWhile

namespace Lox.Expr

-- The tokens are replaced by others of the same meaning, at other places of a text or of another text.
def KeepsData (g : Token → Token) : Prop := ∀ t, (g t).data = t.data

-- Every operator of a tree is replaced.
def mapTokens (g : Token → Token) : Expr → Expr :=
  fold literal grouping (fun operator operand => unary (g operator) operand)
    (fun left operator right => binary left (g operator) right)

def Front.mapTokens (g : Token → Token) (front : Front) : Front :=
  ⟨front.expr.mapTokens g, front.rest.map g⟩

def Fault.mapTokens (g : Token → Token) (fault : Fault) : Fault :=
  ⟨fault.cause, fault.rest.map g⟩

-- What reading comes to, with every token in it replaced.
def mapResult (g : Token → Token) : Except Fault Front → Except Fault Front
  | .error fault => .error (fault.mapTokens g)
  | .ok front => .ok (front.mapTokens g)

-- Where the tokens come from makes no difference to what is read.
def Respects (g : Token → Token) (read : List Token → Except Fault Front) : Prop :=
  ∀ tokens, read (tokens.map g) = mapResult g (read tokens)

section Replace

variable {g : Token → Token}

theorem Respects.ok {read : List Token → Except Fault Front} (h : Respects g read)
    {tokens : List Token} {front : Front} (hread : read tokens = .ok front) :
    read (tokens.map g) = .ok (front.mapTokens g) := by
  rw [h, hread, mapResult]

theorem Respects.error {read : List Token → Except Fault Front} (h : Respects g read)
    {tokens : List Token} {fault : Fault} (hread : read tokens = .error fault) :
    read (tokens.map g) = .error (fault.mapTokens g) := by
  rw [h, hread, mapResult]

theorem mapTokens_binary (l : Expr) (o : Token) (r : Expr) :
    (binary l o r).mapTokens g = binary (l.mapTokens g) (g o) (r.mapTokens g) := rfl

theorem kind_of_keepsData (hg : KeepsData g) (t : Token) : (g t).kind = t.kind := by
  rw [Token.kind, hg, Token.kind]

theorem opens_iff_of_keepsData (hg : KeepsData g) (t : Token) : Opens (g t) ↔ Opens t := by
  rw [Opens, hg, kind_of_keepsData hg, Opens]

theorem attach_mapTokens (hg : KeepsData g) (left : Expr) (rank : Rank) (operator : Token)
    (operand : Expr) :
    (left.attach rank operator operand).mapTokens g =
      (left.mapTokens g).attach rank (g operator) (operand.mapTokens g) := by
  fun_induction attach left rank operator operand with
  | case1 l o r outer ho hlt ih =>
    have ho' : (g o).data.rank? = some outer := by rw [hg, ho]
    simp only [mapTokens_binary, attach, ho', hlt, if_true, ih]
  | case2 l o r outer ho hlt =>
    have ho' : (g o).data.rank? = some outer := by rw [hg, ho]
    simp only [mapTokens_binary, attach, ho', hlt, if_false]
  | case3 l o r ho =>
    have ho' : (g o).data.rank? = none := by rw [hg, ho]
    simp only [mapTokens_binary, attach, ho']
  | case4 left hleft =>
    cases left with
    | binary l o r => exact absurd rfl (hleft l o r)
    | literal | grouping | unary => rfl

theorem extend_mapTokens (hg : KeepsData g) {operand : Reader} (hoperand : Respects g operand.read)
    (left : Front) : extend operand (left.mapTokens g) = mapResult g (extend operand left) := by
  fun_induction extend operand left with
  | case1 left hrest =>
    have hstops : Stops [] := by simp [Stops]
    rw [Front.mapTokens, hrest, List.map_nil, extend_of_stops _ _ hstops]
    simp [mapResult, Front.mapTokens, hrest]
  | case2 left operator tokens hrest hrank =>
    have hstops : Stops ((operator :: tokens).map g) := by
      rintro _ ⟨⟩
      rw [hg, hrank]
    rw [Front.mapTokens, hrest, extend_of_stops _ _ hstops]
    simp [mapResult, Front.mapTokens, hrest]
  | case3 left operator tokens hrest rank hrank fault hright =>
    have hrank' : (g operator).data.rank? = some rank := by rw [hg, hrank]
    rw [Front.mapTokens, hrest, List.map_cons, extend_operator _ hrank', readInto,
      hoperand.error hright]
    rfl
  | case4 left operator tokens hrest rank hrank right hright ih =>
    have hrank' : (g operator).data.rank? = some rank := by rw [hg, hrank]
    rw [Front.mapTokens, hrest, List.map_cons, extend_operator _ hrank', readInto,
      hoperand.ok hright]
    rw [Front.mapTokens, attach_mapTokens hg] at ih
    exact ih

theorem readChain_respects (hg : KeepsData g) {operand : Reader}
    (hoperand : Respects g operand.read) : Respects g (readChain operand) := by
  intro tokens
  unfold readChain
  rw [hoperand]
  cases operand.read tokens with
  | error fault => rfl
  | ok left => exact extend_mapTokens hg hoperand left

-- Each way in which reading an operand can go is open to the replaced tokens too.
theorem outcome_mapTokens (hg : KeepsData g) {deeper : Option Reader}
    (hdeeper : ∀ operand, deeper = some operand → Respects g operand.read) {tokens : List Token}
    {result : Except Fault Front} (h : Outcome deeper tokens result) :
    Outcome deeper (tokens.map g) (mapResult g result) := by
  have hkind {t : Token} {s : Symbol} (h : t.kind = .symbol s) : (g t).kind = .symbol s := by
    rw [kind_of_keepsData hg, h]
  have hchain {operand : Reader} (h : deeper = some operand) : Respects g (readChain operand) :=
    readChain_respects hg (hdeeper operand h)
  cases h with
  | empty => exact .empty
  | foreign hopens hvalue =>
    exact .foreign (mt (opens_iff_of_keepsData hg _).mp hopens) (by rw [hg, hvalue])
  | tooDeep hopens hnone => exact .tooDeep ((opens_iff_of_keepsData hg _).mpr hopens) hnone
  | @unaryFault operator tokens operand fault hunary hsome hread =>
    exact .unaryFault (by rw [hg, hunary]) hsome ((hdeeper operand hsome).error hread)
  | groupFault hopener hsome hread =>
    exact .groupFault (hkind hopener) hsome ((hchain hsome).error hread)
  | unclosed hopener hsome hread hcloser =>
    refine .unclosed (hkind hopener) hsome ((hchain hsome).ok hread) ?_
    intro closer hmem
    rw [Front.mapTokens, List.head?_map] at hmem
    obtain ⟨t, ht, rfl⟩ := Option.map_eq_some_iff.mp hmem
    rw [kind_of_keepsData hg]
    exact hcloser t ht
  | literal hvalue => exact .literal (by rw [hg, hvalue])
  | @unary operator tokens operand inner hunary hsome hread =>
    exact .unary (by rw [hg, hunary]) hsome ((hdeeper operand hsome).ok hread)
  | group hopener hsome hread hcloser =>
    exact .group (hkind hopener) hsome ((hchain hsome).ok hread) (hkind hcloser)

theorem readOperand_respects (hg : KeepsData g) {deeper : Option Reader}
    (hdeeper : ∀ operand, deeper = some operand → Respects g operand.read) :
    Respects g (readOperand deeper) := by
  intro tokens
  exact readOperand_eq_of_outcome
    (outcome_mapTokens hg hdeeper (outcome_readOperand deeper tokens))

theorem operand_respects (hg : KeepsData g) (room : Nat) : Respects g (operand room).read := by
  induction room with
  | zero =>
    have hnone : Respects g (readOperand none) := readOperand_respects hg (by rintro _ ⟨⟩)
    exact hnone
  | succ room ih =>
    have hdeeper : Respects g (readOperand (some (operand room))) :=
      readOperand_respects hg (by rintro _ ⟨⟩; exact ih)
    exact hdeeper

theorem read_respects (hg : KeepsData g) : Respects g Expr.read :=
  readChain_respects hg (operand_respects hg maxNesting)

-- The text of a tree shows no more of its operators than how they are written.
theorem text_mapTokens {e : Expr} (h : ∀ o ∈ e.operators, (g o).lexeme = o.lexeme) :
    (e.mapTokens g).text = e.text := by
  induction e with
  | literal value => rfl
  | grouping inner ih => exact congrArg (fun text => parenthesized "group" [text]) (ih h)
  | unary o inner ih =>
    have hinner := ih fun t ht => h t (List.mem_cons_of_mem _ ht)
    have ho := h o List.mem_cons_self
    change parenthesized (g o).lexeme [(inner.mapTokens g).text] = parenthesized o.lexeme [inner.text]
    rw [ho, hinner]
  | binary l o r ihl ihr =>
    have hl := ihl fun t ht => h t (List.mem_append_left _ ht)
    have hr := ihr fun t ht => h t (List.mem_append_right _ (List.mem_cons_of_mem _ ht))
    have ho := h o (List.mem_append_right _ List.mem_cons_self)
    change parenthesized (g o).lexeme [(l.mapTokens g).text, (r.mapTokens g).text] =
      parenthesized o.lexeme [l.text, r.text]
    rw [ho, hl, hr]

end Replace

end Lox.Expr

namespace Lox

open Lox.Expr Lox.Grammar

-- The expression that all of the tokens in front of the end of input make, or the fault in them.
def readAll (tokens : List Token) : Except Fault Expr :=
  match Expr.read tokens with
  | .error fault => .error fault
  | .ok front => if front.rest.isEmpty then .ok front.expr else .error ⟨.expectedEof, front.rest⟩

def mapAll (g : Token → Token) : Except Fault Expr → Except Fault Expr
  | .error fault => .error (fault.mapTokens g)
  | .ok e => .ok (e.mapTokens g)

theorem parseComplete_eq_readAll (tokens : List Token) :
    parseComplete tokens = (readAll (Input.ofTokens tokens).body).mapError (Input.ofTokens tokens).error := by
  rw [parseComplete, readAll]
  cases Expr.read (Input.ofTokens tokens).body with
  | error fault => rfl
  | ok front =>
    dsimp only
    split <;> rfl

theorem readAll_map {g : Token → Token} (hg : KeepsData g) (tokens : List Token) :
    readAll (tokens.map g) = mapAll g (readAll tokens) := by
  rw [readAll, read_respects hg, readAll]
  cases Expr.read tokens with
  | error fault => rfl
  | ok front =>
    simp only [mapResult, Front.mapTokens, List.isEmpty_map]
    split <;> rfl

theorem exists_of_readAll_error {tokens : List Token} {fault : Fault}
    (h : readAll tokens = .error fault) : ∃ used, tokens = used ++ fault.rest := by
  unfold readAll at h
  cases hread : Expr.read tokens with
  | error fault' =>
    rw [hread] at h
    cases h
    obtain ⟨used, hused, -⟩ := precise_read hread
    exact ⟨used, hused⟩
  | ok front =>
    simp only [hread] at h
    split at h
    · cases h
    · cases h
      obtain ⟨used, hused, -⟩ := read_eq_ok_iff.mp hread
      exact ⟨used, hused⟩

theorem body_map {g : Token → Token} (hg : KeepsData g) (tokens : List Token) :
    (Input.ofTokens (tokens.map g)).body = (Input.ofTokens tokens).body.map g := by
  have heof : (fun t => !t.isEof) ∘ g = fun t => !t.isEof := by
    funext t
    simp [Token.isEof, hg t]
  simp only [Input.ofTokens, List.takeWhile_map, heof]

-- An end of input among the tokens is where the reading of them ends.
theorem exists_eq_body_append {tokens : List Token} (h : ∃ t ∈ tokens, t.isEof = true) :
    ∃ behind, tokens = (Input.ofTokens tokens).body ++ (Input.ofTokens tokens).close :: behind := by
  obtain ⟨close, hclose⟩ := Option.isSome_iff_exists.mp (List.find?_isSome.mpr h)
  have hhead := hclose
  rw [List.find?_eq_head?_dropWhile_not] at hhead
  obtain ⟨behind, hbehind⟩ := List.head?_eq_some_iff.mp hhead
  refine ⟨behind, ?_⟩
  simp only [Input.ofTokens, hclose, Option.getD_some]
  rw [← hbehind, List.takeWhile_append_dropWhile]

-- The token that an error names stands where the rest begins with which no more could be done.
theorem getElem?_of_error {tokens used : List Token} (heof : ∃ t ∈ tokens, t.isEof = true)
    {fault : Fault} (hused : (Input.ofTokens tokens).body = used ++ fault.rest) :
    tokens[used.length]? = some ((Input.ofTokens tokens).error fault).token := by
  obtain ⟨behind, hall⟩ := exists_eq_body_append heof
  have hhead : (fault.rest ++ (Input.ofTokens tokens).close :: behind).head? =
      some ((Input.ofTokens tokens).error fault).token := by
    rw [Input.error]
    cases fault.rest <;> rfl
  rw [hused, List.append_assoc] at hall
  generalize Input.ofTokens tokens = input at hall hhead ⊢
  rw [hall, List.getElem?_append_right (Nat.le_refl _), Nat.sub_self, ← List.head?_eq_getElem?, hhead]

section Same

variable {g : Token → Token} {tokens others : List Token}

theorem exists_isEof (hg : KeepsData g) (hsame : tokens.map g = others.map g)
    (heof : ∃ t ∈ tokens, t.isEof = true) : ∃ t ∈ others, t.isEof = true := by
  obtain ⟨t, ht, htrue⟩ := heof
  have hmem : g t ∈ others.map g := hsame ▸ List.mem_map_of_mem ht
  obtain ⟨other, hother, heq⟩ := List.mem_map.mp hmem
  have hdata : other.data = t.data := by rw [← hg other, heq, hg t]
  exact ⟨other, hother, by rw [Token.isEof, hdata]; exact htrue⟩

theorem exists_index (hbody : (Input.ofTokens tokens).body.map g = (Input.ofTokens others).body.map g)
    (heof : ∃ t ∈ tokens, t.isEof = true) (heof' : ∃ t ∈ others, t.isEof = true)
    {fault fault' : Fault} (hfault : fault.mapTokens g = fault'.mapTokens g)
    {used used' : List Token} (hused : (Input.ofTokens tokens).body = used ++ fault.rest)
    (hused' : (Input.ofTokens others).body = used' ++ fault'.rest) :
    ∃ i : Nat, tokens[i]? = some ((Input.ofTokens tokens).error fault).token ∧
      others[i]? = some ((Input.ofTokens others).error fault').token := by
  have hlength : used.length = used'.length := by
    have hall := congrArg List.length hbody
    have hrest := congrArg (fun f => f.rest.length) hfault
    simp only [hused, hused', Fault.mapTokens, List.length_map, List.length_append] at hall hrest
    omega
  exact ⟨used.length, getElem?_of_error heof hused, hlength ▸ getElem?_of_error heof' hused'⟩

-- Tokens of the same meaning make the same tree but for the places of its operators, or the same
-- fault at the same index.
theorem parseComplete_of_same (hg : KeepsData g) (hsame : tokens.map g = others.map g)
    (heof : ∃ t ∈ tokens, t.isEof = true) :
    (∃ e f, parseComplete tokens = .ok e ∧ parseComplete others = .ok f ∧
      e.mapTokens g = f.mapTokens g) ∨
    ∃ (i : Nat) (d d' : ParseError), parseComplete tokens = .error d ∧
      parseComplete others = .error d' ∧ d.cause = d'.cause ∧
      tokens[i]? = some d.token ∧ others[i]? = some d'.token := by
  have hbody : (Input.ofTokens tokens).body.map g = (Input.ofTokens others).body.map g := by
    rw [← body_map hg, hsame, body_map hg]
  have hall : mapAll g (readAll (Input.ofTokens tokens).body) =
      mapAll g (readAll (Input.ofTokens others).body) := by
    rw [← readAll_map hg, hbody, readAll_map hg]
  rw [parseComplete_eq_readAll, parseComplete_eq_readAll]
  cases hleft : readAll (Input.ofTokens tokens).body with
  | error fault =>
    cases hright : readAll (Input.ofTokens others).body with
    | ok f =>
      rw [hleft, hright] at hall
      cases hall
    | error fault' =>
      rw [hleft, hright] at hall
      have hfault : fault.mapTokens g = fault'.mapTokens g := Except.error.inj hall
      have hcause : (fault.mapTokens g).cause = (fault'.mapTokens g).cause := by rw [hfault]
      obtain ⟨used, hused⟩ := exists_of_readAll_error hleft
      obtain ⟨used', hused'⟩ := exists_of_readAll_error hright
      obtain ⟨i, hi, hi'⟩ :=
        exists_index hbody heof (exists_isEof hg hsame heof) hfault hused hused'
      exact .inr ⟨i, _, _, rfl, rfl, hcause, hi, hi'⟩
  | ok e =>
    cases hright : readAll (Input.ofTokens others).body with
    | error fault' =>
      rw [hleft, hright] at hall
      cases hall
    | ok f =>
      rw [hleft, hright] at hall
      exact .inl ⟨e, f, rfl, rfl, Except.ok.inj hall⟩

end Same

end Lox
