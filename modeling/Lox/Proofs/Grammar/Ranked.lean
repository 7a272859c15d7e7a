import Lox.Proofs.Grammar.Meaning

namespace Lox

-- The token that is written for a value.
def Literal.data : Literal → TokenData
  | number value => .number value
  | str text => .str text
  | bool true => .keyword .trueKw
  | bool false => .keyword .falseKw
  | nil => .keyword .nilKw

namespace Expr

-- A tree from left to right: its operators, its leaves, and parentheses around every grouping.
def inOrder : Expr → List TokenData :=
  fold (fun value => [value.data])
    (fun inner => .symbol .leftParen :: (inner ++ [.symbol .rightParen]))
    (fun operator operand => operator.data :: operand)
    (fun left operator right => left ++ operator.data :: right)

-- Equal but for the places from which the operators come.
inductive Alike : Expr → Expr → Prop where
  | literal (value : Literal) : Alike (.literal value) (.literal value)
  | grouping {e f : Expr} (h : Alike e f) : Alike (.grouping e) (.grouping f)
  | unary {p q : Token} {e f : Expr} (hdata : p.data = q.data) (h : Alike e f) :
    Alike (.unary p e) (.unary q f)
  | binary {l m r s : Expr} {p q : Token} (hleft : Alike l m) (hdata : p.data = q.data)
    (hright : Alike r s) : Alike (.binary l p r) (.binary m q s)

theorem Alike.length_operators {e f : Expr} (h : Alike e f) :
    e.operators.length = f.operators.length := by
  induction h with
  | literal => rfl
  | grouping h ih => exact ih
  | unary hdata h ih => exact congrArg (· + 1) ih
  | @binary l m r s p q hleft hdata hright ihl ihr =>
    change (l.operators ++ p :: r.operators).length = (m.operators ++ q :: s.operators).length
    simp only [List.length_append, List.length_cons, ihl, ihr]

-- The operators are all that can make a difference between trees that are alike.
theorem Alike.eq_of_operators {e f : Expr} (h : Alike e f)
    (hoperators : e.operators = f.operators) : e = f := by
  induction h with
  | literal => rfl
  | grouping h ih => rw [ih hoperators]
  | unary hdata h ih =>
    obtain ⟨rfl, hinner⟩ := List.cons.inj hoperators
    rw [ih hinner]
  | binary hleft hdata hright ihl ihr =>
    obtain ⟨hl, hrest⟩ := List.append_inj hoperators hleft.length_operators
    obtain ⟨rfl, hr⟩ := List.cons.inj hrest
    rw [ihl hl, ihr hr]

end Expr

namespace Grammar

open Lox.Expr Lox.Text

-- A binary operator of a rank stands on top of a tree.
inductive TopRank : Expr → Rank → Prop where
  | intro {rank : Rank} {operator : Token} {s : Symbol} {l r : Expr} :
      operator.kind = .symbol s → s ∈ binaryOperators rank → TopRank (.binary l operator r) rank

-- A tree that can do without further parentheses. On the left of an operator there is nothing that
-- binds more loosely, on the right nothing that does not bind more tightly, and behind a unary
-- operator nothing with a binary one on top.
inductive Ranked : Expr → Prop where
  | literal (value : Literal) : Ranked (.literal value)
  | grouping {e : Expr} : Ranked e → Ranked (.grouping e)
  | unary {operator : Token} {s : Symbol} {e : Expr} :
      operator.kind = .symbol s → s ∈ unaryOperators → (∀ l o r, e ≠ .binary l o r) → Ranked e →
      Ranked (.unary operator e)
  | binary {rank : Rank} {operator : Token} {s : Symbol} {l r : Expr} :
      operator.kind = .symbol s → s ∈ binaryOperators rank →
      (∀ inner, TopRank l inner → rank.toNat ≤ inner.toNat) →
      (∀ inner, TopRank r inner → rank.toNat < inner.toNat) → Ranked l → Ranked r →
      Ranked (.binary l operator r)

theorem Denotes.data_eq {data : TokenData} {value : Literal} (h : Denotes data value) :
    value.data = data := by
  cases h <;> rfl

theorem denotes_data (value : Literal) : Denotes value.data value := by
  cases value with
  | number value => exact .number value
  | str text => exact .str text
  | bool value => cases value <;> first | exact .trueKw | exact .falseKw
  | nil => exact .nilKw

section Sound

variable {p : Phrase} {tokens : List Token} {e : Expr}

theorem level_le_of_topRank {rank : Rank} (h : Derives p tokens e) (htop : TopRank e rank) :
    p.level ≤ rank.toNat := by
  obtain ⟨hk, hs⟩ := htop
  obtain ⟨outer, houter, hle⟩ := level_le_of_derives h
  rw [rank?_eq_some_iff.mpr ⟨_, hs, hk⟩] at houter
  cases houter
  exact hle

theorem not_binary_of_derives_unary (h : Derives .unary tokens e) (l : Expr) (o : Token)
    (r : Expr) : e ≠ .binary l o r := by
  rintro rfl
  obtain ⟨rank, -, hle⟩ := level_le_of_derives h
  cases rank <;> simp [Phrase.level, Rank.toNat] at hle

theorem ranked_of_derives (h : Derives p tokens e) : Ranked e := by
  induction h with
  | single h ih | primary h ih => exact ih
  | @binary rank lefts rights operator s l r hl hk hs hr ihl ihr =>
    refine .binary hk hs (fun inner htop => level_le_of_topRank hl htop) ?_ ihl ihr
    intro inner htop
    have hle := level_le_of_topRank hr htop
    rw [Phrase.level_operandOf] at hle
    exact hle
  | unary hk hs h ih => exact .unary hk hs (not_binary_of_derives_unary h) ih
  | literal => exact .literal _
  | grouping _ _ _ ih => exact .grouping ih

-- None of the tokens is lost, none comes twice, and none changes its place.
theorem inOrder_of_derives (h : Derives p tokens e) : e.inOrder = tokens.map Token.data := by
  induction h with
  | single h ih | primary h ih => exact ih
  | @binary rank lefts rights operator s l r hl hk hs hr ihl ihr =>
    change l.inOrder ++ operator.data :: r.inOrder = _
    rw [ihl, ihr, List.map_append, List.map_cons]
  | @unary tokens operator s e hk hs h ih => exact congrArg (operator.data :: ·) ih
  | literal h => exact congrArg ([·]) h.data_eq
  | @grouping tokens opener closer e ho h hc ih =>
    change .symbol .leftParen :: (e.inOrder ++ [.symbol .rightParen]) = _
    rw [ih, List.map_cons, List.map_append, List.map_singleton, data_of_kind_symbol ho,
      data_of_kind_symbol hc]

end Sound

section Complete

variable {tokens : List Token} {e : Expr} {rank inner : Rank}

theorem Derives.loosen (h : Derives (.chain inner) tokens e) (hle : rank.toNat ≤ inner.toNat) :
    Derives (.chain rank) tokens e := by
  cases rank <;> cases inner <;>
    first
    | exact h
    | exact .single h
    | exact .single (.single h)
    | exact .single (.single (.single h))
    | exact absurd hle (by decide)

theorem Derives.operandOf_of_lt (h : Derives (.chain inner) tokens e)
    (hlt : rank.toNat < inner.toNat) : Derives (.operandOf rank) tokens e := by
  cases rank with
  | equality => exact h.loosen hlt
  | comparison => exact h.loosen hlt
  | term => exact h.loosen hlt
  | factor => cases inner <;> exact absurd hlt (by decide)

end Complete

-- A token of which nothing is known but its meaning.
def placeless (data : TokenData) : Token := .ofLexeme data ""

-- The tokens of a tree from left to right. Its operators are among them as they are.
def written : Expr → List Token :=
  fold (fun value => [placeless value.data])
    (fun inner => placeless (.symbol .leftParen) :: (inner ++ [placeless (.symbol .rightParen)]))
    (fun operator operand => operator :: operand)
    (fun left operator right => left ++ operator :: right)

theorem data_written (e : Expr) : (written e).map Token.data = e.inOrder := by
  induction e with
  | literal value => rfl
  | grouping inner ih =>
    change TokenData.symbol .leftParen ::
      (written inner ++ [placeless (.symbol .rightParen)]).map Token.data = _
    rw [List.map_append, ih]
    rfl
  | unary operator operand ih => exact congrArg (operator.data :: ·) ih
  | binary left operator right ihl ihr =>
    change (written left ++ operator :: written right).map Token.data = _
    rw [List.map_append, List.map_cons, ihl, ihr]
    rfl

-- The grammar derives a ranked tree from its tokens: as an operand, or as a chain of the rank that
-- stands on top of it.
theorem derives_written {e : Expr} (h : Ranked e) :
    Derives .unary (written e) e ∨ ∃ rank, TopRank e rank ∧ Derives (.chain rank) (written e) e := by
  induction h with
  | literal value => exact .inl (.primary (.literal (denotes_data value)))
  | @grouping e h ih =>
    have hinner : Derives .expression (written e) e := by
      obtain hunary | ⟨rank, -, hchain⟩ := ih
      · exact hunary.expression
      · exact hchain.loosen (Nat.zero_le _)
    exact .inl (.primary (.grouping rfl hinner rfl))
  | unary hk hs hnot h ih =>
    obtain hunary | ⟨rank, ⟨_, _⟩, -⟩ := ih
    · exact .inl (.unary hk hs hunary)
    · exact absurd rfl (hnot _ _ _)
  | @binary rank operator s l r hk hs hl hr hleft hright ihl ihr =>
    have hlefts : Derives (.chain rank) (written l) l := by
      obtain hunary | ⟨inner, htop, hchain⟩ := ihl
      · exact .single (hunary.operandOf rank)
      · exact hchain.loosen (hl inner htop)
    have hrights : Derives (.operandOf rank) (written r) r := by
      obtain hunary | ⟨inner, htop, hchain⟩ := ihr
      · exact hunary.operandOf rank
      · exact hchain.operandOf_of_lt (hr inner htop)
    exact .inr ⟨rank, ⟨hk, hs⟩, .binary hlefts hk hs hrights⟩

theorem derives_expression_written {e : Expr} (h : Ranked e) :
    Derives .expression (written e) e := by
  obtain hunary | ⟨rank, -, hchain⟩ := derives_written h
  · exact hunary.expression
  · exact hchain.loosen (Nat.zero_le _)

section Unique

variable {e f : Expr}

theorem alike_of_mapTokens {g : Token → Token} (hg : KeepsData g)
    (h : e.mapTokens g = f.mapTokens g) : Alike e f := by
  have hdata {p q : Token} (hpq : g p = g q) : p.data = q.data := by
    rw [← hg p, hpq, hg q]
  induction e generalizing f with
  | literal value =>
    cases f with
    | literal other =>
      cases h
      exact .literal value
    | grouping | unary | binary => cases h
  | grouping inner ih =>
    cases f with
    | grouping other => exact .grouping (ih (Expr.grouping.inj h))
    | literal | unary | binary => cases h
  | unary operator operand ih =>
    cases f with
    | unary operator' operand' =>
      obtain ⟨hoperator, hoperand⟩ := Expr.unary.inj h
      exact .unary (hdata hoperator) (ih hoperand)
    | literal | grouping | binary => cases h
  | binary left operator right ihl ihr =>
    cases f with
    | binary left' operator' right' =>
      obtain ⟨hleft, hoperator, hright⟩ := Expr.binary.inj h
      exact .binary (ihl hleft) (hdata hoperator) (ihr hright)
    | literal | grouping | unary => cases h

-- Two trees that have the same tokens, but for their places, are both what a reader finds that has
-- room for either of them.
theorem Ranked.alike (he : Ranked e) (hf : Ranked f) (h : e.inOrder = f.inOrder) : Alike e f := by
  let forget : Token → Token := fun t => placeless t.data
  have hforget : KeepsData forget := fun _ => rfl
  have htokens : (written e).map forget = (written f).map forget := by
    have hmap (f : Expr) : (written f).map forget = f.inOrder.map placeless := by
      rw [← data_written, List.map_map]
      rfl
    rw [hmap, hmap, h]
  let room := max e.nesting f.nesting
  have hstops : Stops [] := by simp [Stops]
  have hread {f : Expr} (hf : Ranked f) (hroom : f.nesting ≤ room) :
      readChain (operand room) ((written f).map forget) = .ok ⟨f.mapTokens forget, []⟩ := by
    have hfound := (exact_operand room).readChain_append (derives_expression_written hf) hroom hstops
    rw [List.append_nil] at hfound
    exact (readChain_respects hforget (operand_respects hforget room)).ok hfound
  have hsame := (hread he (Nat.le_max_left _ _)).symm.trans
    (htokens ▸ hread hf (Nat.le_max_right _ _))
  exact alike_of_mapTokens hforget (Front.mk.inj (Except.ok.inj hsame)).1

end Unique

-- A tree that is parsed is ranked and has all the tokens that were read for it, in their order, and it
-- is the only ranked tree that has them.
theorem ranked_tree_unique :
    (∀ tokens e, parse tokens = .ok e → Ranked e ∧
      ∃ used rest, (Input.ofTokens tokens).body = used ++ rest ∧
        Expr.read (Input.ofTokens tokens).body = .ok ⟨e, rest⟩ ∧
        e.inOrder = used.map Token.data) ∧
    (∀ tokens e, parseComplete tokens = .ok e → Ranked e ∧
      e.inOrder = (tokens.takeWhile fun t => !t.isEof).map Token.data) ∧
    (∀ e f, Ranked e → Ranked f → e.inOrder = f.inOrder →
      Alike e f ∧ (e.operators = f.operators → e = f)) := by
  refine ⟨?_, ?_, ?_⟩
  · intro tokens e h
    cases hread : Expr.read (Input.ofTokens tokens).body with
    | error fault => simp [parse, hread] at h
    | ok front =>
      obtain ⟨used, hused, hderives, -⟩ := read_eq_ok_iff.mp hread
      obtain rfl : front.expr = e := by simpa [parse, hread] using h
      exact ⟨ranked_of_derives hderives, used, front.rest, hused, rfl, inOrder_of_derives hderives⟩
  · intro tokens e h
    have hderives := (parseComplete_eq_ok_iff.mp h).1
    exact ⟨ranked_of_derives hderives, inOrder_of_derives hderives⟩
  · intro e f he hf h
    have halike := he.alike hf h
    exact ⟨halike, halike.eq_of_operators⟩

-- Operators of one rank are grouped from the left. The tree that groups them from the right has the
-- same tokens, and so it cannot be ranked as well.
theorem ranked_tree_unique_minus :
    let minus : Token := .ofLexeme (.symbol .minus) "-"
    let word (k : Keyword) : Token := .ofLexeme (.keyword k) k.text
    let tokens := [minus, word .nilKw, minus, word .trueKw, minus, word .falseKw]
    let first := Expr.unary minus (.literal .nil)
    let grouped := Expr.binary (.binary first minus (.literal (.bool true))) minus
      (.literal (.bool false))
    let other := Expr.binary first minus
      (.binary (.literal (.bool true)) minus (.literal (.bool false)))
    parseComplete tokens = .ok grouped ∧ Ranked grouped ∧
      grouped.inOrder = tokens.map Token.data ∧ other.inOrder = grouped.inOrder ∧
      other.operators = grouped.operators ∧ ¬ Ranked other := by
  intro minus word tokens first grouped other
  have hminus : Token.kind minus = .symbol .minus := rfl
  have hmem : Symbol.minus ∈ binaryOperators .term := by decide
  have hnil : Derives .unary [word .nilKw] (.literal .nil) := .primary (.literal .nilKw)
  have htrue : Derives .unary [word .trueKw] (.literal (.bool true)) := .primary (.literal .trueKw)
  have hfalse : Derives .unary [word .falseKw] (.literal (.bool false)) :=
    .primary (.literal .falseKw)
  have hfirst : Derives .unary [minus, word .nilKw] first := .unary hminus (by decide) hnil
  have hinner := Derives.binary (.single (hfirst.operandOf .term)) hminus hmem
    (htrue.operandOf .term)
  have hgrouped := Derives.binary hinner hminus hmem (hfalse.operandOf .term)
  have hparse : parseComplete tokens = .ok grouped :=
    parseComplete_eq_ok_iff.mpr ⟨hgrouped.loosen (Nat.zero_le _), by decide⟩
  obtain ⟨hranked, horder⟩ := ranked_tree_unique.2.1 tokens grouped hparse
  refine ⟨hparse, hranked, horder, rfl, rfl, fun hother => ?_⟩
  have hsame := (ranked_tree_unique.2.2 other grouped hother hranked rfl).2 rfl
  cases (Expr.binary.inj hsame).1

end Grammar

end Lox
