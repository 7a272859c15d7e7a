import Lox.Proofs.Grammar.Recognition

namespace Lox.Grammar

open Lox.Expr

-- Tokens that can go on to be a phrase within the limit on nesting.
def Completable (p : Phrase) (limit : Nat) (tokens : List Token) : Prop :=
  ∃ more e, Derives p (tokens ++ more) e ∧ e.nesting ≤ limit

-- A fault leaves a front of the tokens that can still be completed, and the token behind the front
-- is to blame: the same fault comes up whatever follows that token.
def Precise (read : List Token → Except Fault Front) (p : Phrase) (limit : Nat) : Prop :=
  ∀ ⦃tokens fault⦄, read tokens = .error fault →
    ∃ used, tokens = used ++ fault.rest ∧ Completable p limit used ∧
      ∀ more, more.head? = fault.rest.head? → read (used ++ more) = .error ⟨fault.cause, more⟩

theorem completable_nil (limit : Nat) : Completable .unary limit [] := by
  let nil : Token := .eofAt (.start "")
  have hderives : Derives .unary [{ nil with data := .keyword .nilKw }] (.literal .nil) :=
    .primary (.literal .nilKw)
  exact ⟨_, _, hderives, Nat.zero_le _⟩

theorem Completable.expression {limit : Nat} {tokens : List Token}
    (h : Completable .unary limit tokens) : Completable .expression limit tokens := by
  obtain ⟨more, e, hderives, hnesting⟩ := h
  exact ⟨more, e, hderives.expression, hnesting⟩

theorem Completable.unary {limit : Nat} {tokens : List Token} {operator : Token}
    (hunary : operator.data.isUnary = true) (h : Completable .unary limit tokens) :
    Completable .unary (limit + 1) (operator :: tokens) := by
  obtain ⟨more, e, hderives, hnesting⟩ := h
  obtain ⟨s, hs, hk⟩ := isUnary_iff.mp hunary
  exact ⟨more, _, .unary hk hs hderives, Nat.succ_le_succ hnesting⟩

theorem Completable.grouping {limit : Nat} {tokens : List Token} {opener : Token}
    (hopener : opener.kind = .symbol .leftParen) (h : Completable .expression limit tokens) :
    Completable .unary (limit + 1) (opener :: tokens) := by
  obtain ⟨more, e, hderives, hnesting⟩ := h
  let closer : Token := { opener with data := .symbol .rightParen }
  have hgroup : Derives .primary (opener :: ((tokens ++ more) ++ [closer])) (.grouping e) :=
    .grouping hopener hderives rfl
  refine ⟨more ++ [closer], .grouping e, .primary ?_, Nat.succ_le_succ hnesting⟩
  simpa using hgroup

section Chain

variable {operand : Reader} {limit : Nat}

theorem Exact.extend_fault (exact : Exact operand limit)
    (hprecise : Precise operand.read .unary limit) {left : Front} {fault : Fault}
    (h : extend operand left = .error fault) {before : List Token}
    (hleft : Derives .expression before left.expr) (hlimit : left.expr.nesting ≤ limit) :
    ∃ used, left.rest = used ++ fault.rest ∧ Completable .expression limit (before ++ used) ∧
      ∀ more, more.head? = fault.rest.head? →
        extend operand ⟨left.expr, used ++ more⟩ = .error ⟨fault.cause, more⟩ := by
  fun_induction extend operand left generalizing before with
  | case1 => cases h
  | case2 => cases h
  | case3 left operator tokens hrest rank hrank fault hright =>
    cases h
    obtain ⟨used, rfl, ⟨more, e, hderives, hnesting⟩, hfault⟩ := hprecise hright
    refine ⟨operator :: used, hrest, ⟨more, left.expr.attach rank operator e, ?_, ?_⟩, ?_⟩
    · simpa using derives_attach hleft (Nat.zero_le _) hrank hderives
    · rw [nesting_attach]
      omega
    · intro rest hhead
      rw [List.cons_append, extend_operator _ hrank]
      simp only [readInto, hfault rest hhead]
  | case4 left operator tokens hrest rank hrank right hright ih =>
    obtain ⟨first, rfl, hoperand, hright⟩ := exact.sound hright
    have hnext := derives_attach hleft (Nat.zero_le _) hrank hoperand
    have hnesting : (left.expr.attach rank operator right.expr).nesting ≤ limit := by
      rw [nesting_attach]
      omega
    obtain ⟨used, hused, hcompletable, hfault⟩ := ih h hnext hnesting
    refine ⟨operator :: (first ++ used), ?_, ?_, ?_⟩
    · rw [hrest, hused]
      simp
    · simpa using hcompletable
    · intro rest hhead
      rw [List.cons_append, extend_operator _ hrank, List.append_assoc,
        exact.readInto_operand hoperand hright]
      exact hfault rest hhead

theorem Exact.precise_readChain (exact : Exact operand limit)
    (hprecise : Precise operand.read .unary limit) :
    Precise (readChain operand) .expression limit := by
  intro tokens fault h
  cases hfirst : operand.read tokens with
  | error fault' =>
    simp only [readChain, hfirst] at h
    cases h
    obtain ⟨used, hused, hcompletable, hfault⟩ := hprecise hfirst
    refine ⟨used, hused, hcompletable.expression, ?_⟩
    intro more hhead
    simp only [readChain, hfault more hhead]
  | ok left =>
    simp only [readChain, hfirst] at h
    obtain ⟨first, rfl, hderives, hnesting⟩ := exact.sound hfirst
    obtain ⟨used, hused, hcompletable, hfault⟩ :=
      exact.extend_fault hprecise h hderives.expression hnesting
    refine ⟨first ++ used, by rw [hused, List.append_assoc], hcompletable, ?_⟩
    intro more hhead
    rw [List.append_assoc, readChain_eq_readInto, exact.readInto_operand hderives hnesting]
    exact hfault more hhead

end Chain

theorem precise_readOperand {deeper : Option Reader} {limit : Nat} (hbelow : Below deeper limit)
    (hprecise : ∀ operand room, deeper = some operand → limit = room + 1 →
      Precise operand.read .unary room) :
    Precise (readOperand deeper) .unary limit := by
  intro tokens fault h
  have houtcome := outcome_readOperand deeper tokens
  rw [h] at houtcome
  cases houtcome with
  | empty =>
    refine ⟨[], rfl, completable_nil limit, ?_⟩
    intro more hhead
    rw [List.head?_eq_none_iff.mp hhead]
    rfl
  | foreign hopens hvalue =>
    refine ⟨[], rfl, completable_nil limit, ?_⟩
    intro more hhead
    obtain ⟨rest, rfl⟩ := List.head?_eq_some_iff.mp hhead
    exact readOperand_eq_of_outcome (.foreign hopens hvalue)
  | tooDeep hopens hdeeper =>
    refine ⟨[], rfl, completable_nil limit, ?_⟩
    intro more hhead
    obtain ⟨rest, rfl⟩ := List.head?_eq_some_iff.mp hhead
    exact readOperand_eq_of_outcome (.tooDeep hopens hdeeper)
  | @unaryFault operator tokens operand fault hunary hdeeper hread =>
    subst hdeeper
    obtain ⟨room, rfl, _⟩ := hbelow.exact_of_some
    obtain ⟨used, rfl, hcompletable, hfault⟩ := hprecise operand room rfl rfl hread
    refine ⟨operator :: used, rfl, hcompletable.unary hunary, ?_⟩
    intro more hhead
    exact readOperand_eq_of_outcome (.unaryFault hunary rfl (hfault more hhead))
  | @groupFault opener tokens operand fault hopener hdeeper hread =>
    subst hdeeper
    obtain ⟨room, rfl, hexact⟩ := hbelow.exact_of_some
    obtain ⟨used, rfl, hcompletable, hfault⟩ :=
      hexact.precise_readChain (hprecise operand room rfl rfl) hread
    refine ⟨opener :: used, rfl, hcompletable.grouping hopener, ?_⟩
    intro more hhead
    exact readOperand_eq_of_outcome (.groupFault hopener rfl (hfault more hhead))
  | @unclosed opener tokens operand inner hopener hdeeper hread hcloser =>
    subst hdeeper
    obtain ⟨room, rfl, hexact⟩ := hbelow.exact_of_some
    obtain ⟨used, rfl, hderives, hnesting, hstops⟩ := hexact.readChain_sound hread
    have hcompletable : Completable .expression room used :=
      ⟨[], inner.expr, by simpa using hderives, hnesting⟩
    refine ⟨opener :: used, rfl, hcompletable.grouping hopener, ?_⟩
    -- the token behind the inner expression is the same, so the expression ends there again
    intro more hhead
    have hstops' : Stops more := by
      unfold Stops
      rw [hhead]
      exact hstops
    have hread' := hexact.readChain_append hderives hnesting hstops'
    exact readOperand_eq_of_outcome (.unclosed hopener rfl hread' (hhead ▸ hcloser))

theorem precise_operand (room : Nat) : Precise (operand room).read .unary room := by
  induction room with
  | zero =>
    have hbelow : Below none 0 := rfl
    exact precise_readOperand hbelow (by simp)
  | succ room ih =>
    have hbelow : Below (some (operand room)) (room + 1) := ⟨_, rfl, exact_operand room⟩
    apply precise_readOperand hbelow
    rintro _ _ ⟨⟩ ⟨⟩
    exact ih

theorem precise_read : Precise Expr.read .expression maxNesting :=
  (exact_operand maxNesting).precise_readChain (precise_operand maxNesting)

end Lox.Grammar
