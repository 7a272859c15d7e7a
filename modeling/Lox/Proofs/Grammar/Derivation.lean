import Lox.Expr.Rank
import Mathlib.Data.List.Basic

namespace Lox

namespace Expr

-- The largest number of unary operators and parentheses on a path from the root to a leaf.
def nesting : Expr → Nat :=
  fold (fun _ => 0) (fun inner => inner + 1) (fun _ operand => operand + 1)
    (fun left _ right => max left right)

@[simp] theorem nesting_literal (value : Literal) : (literal value).nesting = 0 := rfl

@[simp] theorem nesting_grouping (e : Expr) : (grouping e).nesting = e.nesting + 1 := rfl

@[simp] theorem nesting_unary (operator : Token) (e : Expr) :
    (unary operator e).nesting = e.nesting + 1 := rfl

@[simp] theorem nesting_binary (l : Expr) (operator : Token) (r : Expr) :
    (binary l operator r).nesting = max l.nesting r.nesting := rfl

-- The operators of a tree, unary and binary ones, from left to right.
def operators : Expr → List Token :=
  fold (fun _ => []) id (fun operator operand => operator :: operand)
    (fun left operator right => left ++ operator :: right)

-- The leaves of a tree, from left to right.
def leaves : Expr → List Literal :=
  fold (fun value => [value]) id (fun _ operand => operand) (fun left _ right => left ++ right)

end Expr

namespace Grammar

-- The binary operators of a rank.
def binaryOperators : Rank → List Symbol
  | .equality => [.bangEqual, .equalEqual]
  | .comparison => [.greater, .greaterEqual, .less, .lessEqual]
  | .term => [.minus, .plus]
  | .factor => [.slash, .star]

def unaryOperators : List Symbol := [.bang, .minus]

-- The value of a token that is an expression on its own.
inductive Denotes : TokenData → Literal → Prop where
  | number (value : Number.Binary64) : Denotes (.number value) (.number value)
  | str (text : String) : Denotes (.str text) (.str text)
  | trueKw : Denotes (.keyword .trueKw) (.bool true)
  | falseKw : Denotes (.keyword .falseKw) (.bool false)
  | nilKw : Denotes (.keyword .nilKw) .nil

-- What the rules of the grammar define. The binary operators of one rank share a rule.
inductive Phrase where
  | chain (rank : Rank)
  | unary
  | primary

namespace Phrase

abbrev expression : Phrase := chain .equality

-- What stands between the operators of a rank.
def operandOf : Rank → Phrase
  | .equality => chain .comparison
  | .comparison => chain .term
  | .term => chain .factor
  | .factor => unary

-- How tightly the parts of a phrase hold together. Nothing comes between the parts of an operand.
def level : Phrase → Nat
  | chain rank => rank.toNat
  | unary => 4
  | primary => 4

theorem level_operandOf (rank : Rank) : (operandOf rank).level = rank.toNat + 1 := by
  cases rank <;> rfl

end Phrase

-- The rules of the grammar, each with the tree that it builds. A chain of operators of one rank
-- grows on its right side, so that the operands are grouped from the left.
inductive Derives : Phrase → List Token → Expr → Prop where
  | single {rank : Rank} {tokens : List Token} {e : Expr} :
      Derives (.operandOf rank) tokens e → Derives (.chain rank) tokens e
  | binary {rank : Rank} {lefts rights : List Token} {operator : Token} {s : Symbol} {l r : Expr} :
      Derives (.chain rank) lefts l → operator.kind = .symbol s → s ∈ binaryOperators rank →
      Derives (.operandOf rank) rights r →
      Derives (.chain rank) (lefts ++ operator :: rights) (.binary l operator r)
  | unary {tokens : List Token} {operator : Token} {s : Symbol} {e : Expr} :
      operator.kind = .symbol s → s ∈ unaryOperators → Derives .unary tokens e →
      Derives .unary (operator :: tokens) (.unary operator e)
  | primary {tokens : List Token} {e : Expr} :
      Derives .primary tokens e → Derives .unary tokens e
  | literal {token : Token} {value : Literal} :
      Denotes token.data value → Derives .primary [token] (.literal value)
  | grouping {tokens : List Token} {opener closer : Token} {e : Expr} :
      opener.kind = .symbol .leftParen → Derives .expression tokens e →
      closer.kind = .symbol .rightParen →
      Derives .primary (opener :: (tokens ++ [closer])) (.grouping e)

theorem mem_binaryOperators_iff {s : Symbol} {rank : Rank} :
    s ∈ binaryOperators rank ↔ s.rank? = some rank := by
  cases s <;> cases rank <;> decide

theorem mem_unaryOperators_iff {s : Symbol} : s ∈ unaryOperators ↔ s.isUnary = true := by
  cases s <;> decide

theorem data_of_kind_symbol {t : Token} {s : Symbol} (h : t.kind = .symbol s) :
    t.data = .symbol s := by
  obtain ⟨data, span⟩ := t
  cases data <;> simp_all [Token.kind, TokenData.kind]

theorem rank?_eq_some_iff {t : Token} {rank : Rank} :
    t.data.rank? = some rank ↔ ∃ s ∈ binaryOperators rank, t.kind = .symbol s := by
  constructor
  · intro h
    obtain ⟨data, span⟩ := t
    cases data with
    | symbol s => exact ⟨s, mem_binaryOperators_iff.mpr h, rfl⟩
    | _ => simp [TokenData.rank?] at h
  · rintro ⟨s, hs, hk⟩
    rw [data_of_kind_symbol hk]
    exact mem_binaryOperators_iff.mp hs

theorem isUnary_iff {t : Token} :
    t.data.isUnary = true ↔ ∃ s ∈ unaryOperators, t.kind = .symbol s := by
  constructor
  · intro h
    obtain ⟨data, span⟩ := t
    cases data with
    | symbol s => exact ⟨s, mem_unaryOperators_iff.mpr h, rfl⟩
    | _ => simp [TokenData.isUnary] at h
  · rintro ⟨s, hs, hk⟩
    rw [data_of_kind_symbol hk]
    exact mem_unaryOperators_iff.mp hs

theorem literal?_eq_some_iff {data : TokenData} {value : Literal} :
    data.literal? = some value ↔ Denotes data value := by
  constructor
  · intro h
    unfold TokenData.literal? at h
    split at h
    · cases h; exact .falseKw
    · cases h; exact .trueKw
    · cases h; exact .nilKw
    · cases data <;> cases h
      · exact .str _
      · exact .number _
  · rintro (_ | _) <;> rfl

-- Whatever stands between the operators of a rank may be a single operand.
theorem Derives.operandOf {tokens : List Token} {e : Expr} (h : Derives .unary tokens e)
    (rank : Rank) : Derives (.operandOf rank) tokens e := by
  have hfactor : Derives (.chain .factor) tokens e := .single h
  have hterm : Derives (.chain .term) tokens e := .single hfactor
  cases rank with
  | equality => exact .single hterm
  | comparison => exact hterm
  | term => exact hfactor
  | factor => exact h

theorem Derives.expression {tokens : List Token} {e : Expr} (h : Derives .unary tokens e) :
    Derives .expression tokens e :=
  .single (h.operandOf .equality)

-- The operator on top of a phrase binds as tightly as the phrase demands.
theorem level_le_of_derives {p : Phrase} {tokens : List Token} {l r : Expr} {operator : Token}
    (h : Derives p tokens (.binary l operator r)) :
    ∃ rank, operator.data.rank? = some rank ∧ p.level ≤ rank.toNat := by
  generalize he : Expr.binary l operator r = e at h
  induction h with
  | @single rank tokens e h ih =>
    obtain ⟨outer, ho, hle⟩ := ih he
    rw [Phrase.level_operandOf] at hle
    exact ⟨outer, ho, by simp only [Phrase.level]; omega⟩
  | @binary rank lefts rights operator s l r hl hk hs hr ihl ihr =>
    cases he
    exact ⟨rank, rank?_eq_some_iff.mpr ⟨s, hs, hk⟩, Nat.le_refl _⟩
  | primary h ih => exact ih he
  | unary | literal | grouping => cases he

end Grammar

end Lox
