import Lox.Proofs.Grammar.Attach
import Lox.Proofs.Grammar.Outcome

namespace Lox.Grammar

open Lox.Expr

-- A reader that finds every operand of the grammar up to a limit on nesting, and no others.
structure Exact (operand : Reader) (limit : Nat) : Prop where
  sound {tokens : List Token} {front : Front} (h : operand.read tokens = .ok front) :
    ∃ used, tokens = used ++ front.rest ∧ Derives .unary used front.expr ∧
      front.expr.nesting ≤ limit
  complete {used : List Token} {e : Expr} (h : Derives .unary used e) (hlimit : e.nesting ≤ limit)
    (rest : List Token) : operand.read (used ++ rest) = .ok ⟨e, rest⟩

section Chain

variable {operand : Reader} {limit : Nat}

-- Behind a chain of operands the next one stands beside the whole chain, in the same hole.
theorem extend_of_derives {rank : Rank} {lefts : List Token} {l : Expr} {operator : Token}
    (hl : Derives (.chain rank) lefts l) (hrank : operator.data.rank? = some rank)
    {fill : Expr → Expr} (hfill : HandsOn fill rank.toNat) (tokens : List Token) :
    extend operand ⟨fill l, operator :: tokens⟩ =
      readInto operand (fun r => fill (.binary l operator r)) tokens := by
  have hplace : (fill l).attach rank operator = fun r => fill (.binary l operator r) := by
    funext r
    rw [hfill l rank operator r (Nat.le_refl _), attach_of_derives hl]
  rw [extend_operator _ hrank, hplace]

theorem Exact.readInto_operand (exact : Exact operand limit) {used : List Token} {e : Expr}
    (h : Derives .unary used e) (hlimit : e.nesting ≤ limit) (fill : Expr → Expr)
    (rest : List Token) :
    readInto operand fill (used ++ rest) = extend operand ⟨fill e, rest⟩ := by
  simp only [readInto, exact.complete h hlimit]

-- Reading goes over a whole phrase, whatever comes behind it. What has been read before only has
-- to leave the operators of the phrase to the phrase.
theorem Exact.readInto_append (exact : Exact operand limit) {p : Phrase} {used : List Token}
    {e : Expr} (h : Derives p used e) (hlimit : e.nesting ≤ limit) (fill : Expr → Expr)
    (hfill : HandsOn fill p.level) (rest : List Token) :
    readInto operand fill (used ++ rest) = extend operand ⟨fill e, rest⟩ := by
  induction h generalizing fill rest with
  | @single rank used e h ih =>
    apply ih hlimit fill _ rest
    rw [Phrase.level_operandOf]
    exact hfill.mono (Nat.le_succ _)
  | @binary rank lefts rights operator s l r hl hk hs hr ihl ihr =>
    rw [nesting_binary] at hlimit
    have hrank : operator.data.rank? = some rank := rank?_eq_some_iff.mpr ⟨s, hs, hk⟩
    calc
      readInto operand fill ((lefts ++ operator :: rights) ++ rest)
        = extend operand ⟨fill l, operator :: (rights ++ rest)⟩ := by
          rw [List.append_assoc]
          exact ihl (by omega) fill hfill _
      _ = readInto operand (fun x => fill (.binary l operator x)) (rights ++ rest) :=
          extend_of_derives hl hrank hfill _
      _ = extend operand ⟨fill (.binary l operator r), rest⟩ := by
          apply ihr (by omega)
          rw [Phrase.level_operandOf]
          exact HandsOn.binary hfill hrank
  | unary hk hs h ih => exact exact.readInto_operand (.unary hk hs h) hlimit fill rest
  | primary h ih => exact exact.readInto_operand (.primary h) hlimit fill rest
  | literal h => exact exact.readInto_operand (.primary (.literal h)) hlimit fill rest
  | grouping ho h hc ih => exact exact.readInto_operand (.primary (.grouping ho h hc)) hlimit fill rest

theorem Exact.readChain_append (exact : Exact operand limit) {used : List Token} {e : Expr}
    (h : Derives .expression used e) (hlimit : e.nesting ≤ limit) {rest : List Token}
    (hrest : Stops rest) : readChain operand (used ++ rest) = .ok ⟨e, rest⟩ := by
  rw [readChain_eq_readInto, exact.readInto_append h hlimit id (handsOn_id _),
    extend_of_stops _ _ hrest]
  rfl

-- Whatever is read behind an expression makes a longer one with it, and reading stops only where
-- no operator comes next.
theorem Exact.extend_sound (exact : Exact operand limit) {left front : Front}
    (h : extend operand left = .ok front) {before : List Token}
    (hleft : Derives .expression before left.expr) (hlimit : left.expr.nesting ≤ limit) :
    ∃ used, left.rest = used ++ front.rest ∧ Derives .expression (before ++ used) front.expr ∧
      front.expr.nesting ≤ limit ∧ Stops front.rest := by
  fun_induction extend operand left generalizing before with
  | case1 left hrest =>
    cases h
    exact ⟨[], by simp, by simpa using hleft, hlimit, by simp [Stops, hrest]⟩
  | case2 left operator tokens hrest hrank =>
    cases h
    exact ⟨[], by simp, by simpa using hleft, hlimit, by simp [Stops, hrest, hrank]⟩
  | case3 => cases h
  | case4 left operator tokens hrest rank hrank right hright ih =>
    obtain ⟨used, rfl, hoperand, hright⟩ := exact.sound hright
    have hnext := derives_attach hleft (Nat.zero_le _) hrank hoperand
    have hnesting : (left.expr.attach rank operator right.expr).nesting ≤ limit := by
      rw [nesting_attach]
      omega
    obtain ⟨more, hmore, hfront⟩ := ih h hnext hnesting
    refine ⟨operator :: (used ++ more), ?_, ?_⟩
    · rw [hrest, hmore]
      simp
    · simpa using hfront

theorem Exact.readChain_sound (exact : Exact operand limit) {tokens : List Token} {front : Front}
    (h : readChain operand tokens = .ok front) :
    ∃ used, tokens = used ++ front.rest ∧ Derives .expression used front.expr ∧
      front.expr.nesting ≤ limit ∧ Stops front.rest := by
  unfold readChain at h
  split at h
  · cases h
  · rename_i left hleft
    obtain ⟨first, rfl, hfirst, hlimit⟩ := exact.sound hleft
    obtain ⟨used, hused, hfront⟩ := exact.extend_sound h hfirst.expression hlimit
    exact ⟨first ++ used, by rw [hused, List.append_assoc], hfront⟩

end Chain

-- What lies below an operand for which there is so much room.
def Below (deeper : Option Reader) : Nat → Prop
  | 0 => deeper = none
  | room + 1 => ∃ operand, deeper = some operand ∧ Exact operand room

theorem Below.exact_of_some {operand : Reader} {limit : Nat} (h : Below (some operand) limit) :
    ∃ room, limit = room + 1 ∧ Exact operand room := by
  cases limit with
  | zero => cases h
  | succ room =>
    obtain ⟨_, hsome, hexact⟩ := h
    cases hsome
    exact ⟨room, rfl, hexact⟩

theorem Below.exists_of_lt {deeper : Option Reader} {limit n : Nat} (h : Below deeper limit)
    (hn : n + 1 ≤ limit) : ∃ operand room, deeper = some operand ∧ Exact operand room ∧ n ≤ room := by
  cases limit with
  | zero => omega
  | succ room =>
    obtain ⟨operand, hdeeper, hexact⟩ := h
    exact ⟨operand, room, hdeeper, hexact, by omega⟩

theorem stops_of_rightParen {closer : Token} (h : closer.kind = .symbol .rightParen)
    (rest : List Token) : Stops (closer :: rest) := by
  rintro t ⟨⟩
  rw [data_of_kind_symbol h]
  rfl

theorem readOperand_sound {deeper : Option Reader} {limit : Nat} (hbelow : Below deeper limit)
    {tokens : List Token} {front : Front} (h : readOperand deeper tokens = .ok front) :
    ∃ used, tokens = used ++ front.rest ∧ Derives .unary used front.expr ∧
      front.expr.nesting ≤ limit := by
  have houtcome := outcome_readOperand deeper tokens
  rw [h] at houtcome
  cases houtcome with
  | @literal token rest value hvalue =>
    exact ⟨[token], rfl, .primary (.literal (literal?_eq_some_iff.mp hvalue)), Nat.zero_le _⟩
  | @unary operator tokens operand inner hunary hdeeper hread =>
    subst hdeeper
    obtain ⟨room, rfl, hexact⟩ := hbelow.exact_of_some
    obtain ⟨used, rfl, hderives, hnesting⟩ := hexact.sound hread
    obtain ⟨s, hs, hk⟩ := isUnary_iff.mp hunary
    exact ⟨operator :: used, rfl, .unary hk hs hderives, Nat.succ_le_succ hnesting⟩
  | @group opener closer tokens rest operand e hopener hdeeper hread hcloser =>
    subst hdeeper
    obtain ⟨room, rfl, hexact⟩ := hbelow.exact_of_some
    obtain ⟨used, rfl, hderives, hnesting, _⟩ := hexact.readChain_sound hread
    exact ⟨opener :: (used ++ [closer]), by simp, .primary (.grouping hopener hderives hcloser),
      Nat.succ_le_succ hnesting⟩

theorem readOperand_complete {deeper : Option Reader} {limit : Nat} (hbelow : Below deeper limit)
    {used : List Token} {e : Expr} (h : Derives .unary used e) (hlimit : e.nesting ≤ limit)
    (rest : List Token) : readOperand deeper (used ++ rest) = .ok ⟨e, rest⟩ := by
  apply readOperand_eq_of_outcome
  cases h with
  | unary hk hs h =>
    obtain ⟨operand, room, hdeeper, hexact, hroom⟩ := hbelow.exists_of_lt hlimit
    have hread := hexact.complete h hroom rest
    exact .unary (isUnary_iff.mpr ⟨_, hs, hk⟩) hdeeper hread
  | primary h =>
    cases h with
    | literal hvalue => exact .literal (literal?_eq_some_iff.mpr hvalue)
    | @grouping tokens opener closer e hopener h hcloser =>
      obtain ⟨operand, room, hdeeper, hexact, hroom⟩ := hbelow.exists_of_lt hlimit
      have hread := hexact.readChain_append h hroom (stops_of_rightParen hcloser rest)
      simpa using Outcome.group hopener hdeeper hread hcloser

-- Room for so many levels of nesting is what an operand may take up, neither less nor more.
theorem exact_operand (room : Nat) : Exact (operand room) room := by
  induction room with
  | zero =>
    have hbelow : Below none 0 := rfl
    exact ⟨readOperand_sound hbelow, readOperand_complete hbelow⟩
  | succ room ih =>
    have hbelow : Below (some (operand room)) (room + 1) := ⟨_, rfl, ih⟩
    exact ⟨readOperand_sound hbelow, readOperand_complete hbelow⟩

-- What is read at the front of some tokens is an expression behind which no operator comes.
theorem read_eq_ok_iff {tokens : List Token} {front : Front} :
    Expr.read tokens = .ok front ↔ ∃ used, tokens = used ++ front.rest ∧
      Derives .expression used front.expr ∧ front.expr.nesting ≤ maxNesting ∧ Stops front.rest := by
  constructor
  · exact (exact_operand maxNesting).readChain_sound
  · rintro ⟨used, rfl, hderives, hnesting, hstops⟩
    exact (exact_operand maxNesting).readChain_append hderives hnesting hstops

-- A token that becomes an operator of a tree, in front of an operand or between two.
def isOperator (t : Token) : Bool := t.data.isUnary || t.data.rank?.isSome

theorem isOperator_of_kind {t : Token} {s : Symbol} (h : t.kind = .symbol s) :
    isOperator t = (s.isUnary || s.rank?.isSome) ∧ t.data.literal? = none := by
  rw [isOperator, data_of_kind_symbol h]
  exact ⟨rfl, rfl⟩

-- Every operator of the tree is the token that was read for it, every leaf is the value of its
-- token, and all of them stand in the order of the tokens.
theorem operators_and_leaves_of_derives {p : Phrase} {tokens : List Token} {e : Expr}
    (h : Derives p tokens e) :
    e.operators = tokens.filter isOperator ∧
      e.leaves = tokens.filterMap fun t => t.data.literal? := by
  induction h with
  | single h ih => exact ih
  | primary h ih => exact ih
  | @binary rank lefts rights operator s l r hl hk hs hr ihl ihr =>
    obtain ⟨hoperator, hvalue⟩ := isOperator_of_kind hk
    rw [mem_binaryOperators_iff.mp hs, Option.isSome_some, Bool.or_true] at hoperator
    simp only [List.filter_append, List.filter_cons, List.filterMap_append, List.filterMap_cons,
      hoperator, hvalue, if_true, ← ihl.1, ← ihl.2, ← ihr.1, ← ihr.2]
    exact ⟨rfl, rfl⟩
  | @unary tokens operator s e hk hs h ih =>
    obtain ⟨hoperator, hvalue⟩ := isOperator_of_kind hk
    rw [mem_unaryOperators_iff.mp hs, Bool.true_or] at hoperator
    simp only [List.filter_cons, List.filterMap_cons, hoperator, hvalue, if_true, ← ih.1, ← ih.2]
    exact ⟨rfl, rfl⟩
  | @literal token value h =>
    have hvalue := literal?_eq_some_iff.mpr h
    have hoperator : isOperator token = false := by
      obtain ⟨data, span⟩ := token
      cases h <;> rfl
    simp only [List.filter_cons, List.filterMap_cons, hvalue, hoperator]
    exact ⟨rfl, rfl⟩
  | @grouping tokens opener closer e ho h hc ih =>
    obtain ⟨hopener, hnone⟩ := isOperator_of_kind ho
    obtain ⟨hcloser, hnone'⟩ := isOperator_of_kind hc
    have hl : isOperator opener = false := hopener
    have hr : isOperator closer = false := hcloser
    change e.operators = _ ∧ e.leaves = _
    simpa [List.filter_cons, List.filterMap_cons, hl, hr, hnone, hnone'] using ih

theorem parseComplete_eq_ok_iff {tokens : List Token} {e : Expr} :
    parseComplete tokens = .ok e ↔
      Derives .expression (Input.ofTokens tokens).body e ∧ e.nesting ≤ maxNesting := by
  constructor
  · intro h
    obtain ⟨e', hread, heq⟩ | ⟨fault, _, heq⟩ | ⟨_, _, _, _, heq⟩ := parseComplete_cases tokens
    · obtain ⟨used, hused, hderives, hnesting, _⟩ := read_eq_ok_iff.mp hread
      rw [h] at heq
      cases heq
      rw [hused, List.append_nil]
      exact ⟨hderives, hnesting⟩
    · rw [h] at heq
      cases heq
    · rw [h] at heq
      cases heq
  · rintro ⟨hderives, hnesting⟩
    have hread : Expr.read (Input.ofTokens tokens).body = .ok ⟨e, []⟩ :=
      read_eq_ok_iff.mpr ⟨_, by simp, hderives, hnesting, by simp [Stops]⟩
    simp [parseComplete, hread]

-- The tokens in front of the end of input are an expression exactly if the grammar derives them
-- with no more than 128 levels of nesting, and then the tree is the one that the grammar builds.
theorem parseComplete_exact (tokens : List Token) :
    (∀ e, parseComplete tokens = .ok e ↔
      Derives .expression (tokens.takeWhile fun t => !t.isEof) e ∧ e.nesting ≤ 128) ∧
    (∀ e, parseComplete tokens = .ok e →
      e.operators = (tokens.takeWhile fun t => !t.isEof).filter isOperator ∧
      e.leaves = (tokens.takeWhile fun t => !t.isEof).filterMap fun t => t.data.literal?) ∧
    ((∃ error, parseComplete tokens = .error error) ↔
      ¬ ∃ e, Derives .expression (tokens.takeWhile fun t => !t.isEof) e ∧ e.nesting ≤ 128) := by
  have hiff (e : Expr) : parseComplete tokens = .ok e ↔
      Derives .expression (tokens.takeWhile fun t => !t.isEof) e ∧ e.nesting ≤ 128 :=
    parseComplete_eq_ok_iff
  refine ⟨hiff, ?_, ?_⟩
  · intro e h
    exact operators_and_leaves_of_derives ((hiff e).mp h).1
  · simp only [← hiff]
    cases parseComplete tokens with
    | error error => simp
    | ok e => simp

end Lox.Grammar
