import Lox.Proofs.Grammar.Substitution

namespace Lox

namespace Expr

@[simp] theorem height_literal (value : Literal) : (literal value).height = 1 := rfl

@[simp] theorem height_grouping (e : Expr) : (grouping e).height = e.height + 1 := rfl

@[simp] theorem height_unary (operator : Token) (e : Expr) :
    (unary operator e).height = e.height + 1 := rfl

@[simp] theorem height_binary (l : Expr) (operator : Token) (r : Expr) :
    (binary l operator r).height = max l.height r.height + 1 := rfl

theorem height_pos (e : Expr) : 0 < e.height := by
  cases e <;> exact Nat.succ_pos _

-- How many binary operators stand directly below one another, from the root on.
def spine : Expr → Nat :=
  fold (fun _ => 0) (fun _ => 0) (fun _ _ => 0) (fun left _ right => max left right + 1)

@[simp] theorem spine_literal (value : Literal) : (literal value).spine = 0 := rfl

@[simp] theorem spine_grouping (e : Expr) : (grouping e).spine = 0 := rfl

@[simp] theorem spine_unary (operator : Token) (e : Expr) : (unary operator e).spine = 0 := rfl

@[simp] theorem spine_binary (l : Expr) (operator : Token) (r : Expr) :
    (binary l operator r).spine = max l.spine r.spine + 1 := rfl

-- The largest number of binary operators that stand directly below one another anywhere.
def longestSpine : Expr → Nat
  | literal _ => 0
  | grouping inner => inner.longestSpine
  | unary _ operand => operand.longestSpine
  | binary l _ r => max (max l.spine r.spine + 1) (max l.longestSpine r.longestSpine)

@[simp] theorem longestSpine_literal (value : Literal) : (literal value).longestSpine = 0 := rfl

@[simp] theorem longestSpine_grouping (e : Expr) :
    (grouping e).longestSpine = e.longestSpine := rfl

@[simp] theorem longestSpine_unary (operator : Token) (e : Expr) :
    (unary operator e).longestSpine = e.longestSpine := rfl

@[simp] theorem longestSpine_binary (l : Expr) (operator : Token) (r : Expr) :
    (binary l operator r).longestSpine =
      max (max l.spine r.spine + 1) (max l.longestSpine r.longestSpine) := rfl

theorem spine_le_longestSpine (e : Expr) : e.spine ≤ e.longestSpine := by
  cases e with
  | literal | grouping | unary => exact Nat.zero_le _
  | binary l operator r => exact Nat.le_max_left _ _

-- A unary operator or a parenthesis starts a new stretch of binary operators. So with each level of
-- nesting the tree becomes higher by one such stretch at most.
theorem height_le_of_longestSpine {e : Expr} {n : Nat} (h : e.longestSpine ≤ n) :
    e.height ≤ e.spine + 1 + e.nesting * (n + 1) := by
  have hlevel {inner : Expr} (hn : inner.longestSpine ≤ n)
      (ih : inner.height ≤ inner.spine + 1 + inner.nesting * (n + 1)) :
      inner.height + 1 ≤ 0 + 1 + (inner.nesting + 1) * (n + 1) := by
    have hspine := inner.spine_le_longestSpine
    rw [Nat.succ_mul]
    omega
  induction e with
  | literal value => exact Nat.le_add_right _ _
  | grouping inner ih =>
    rw [longestSpine_grouping] at h
    rw [height_grouping, nesting_grouping, spine_grouping]
    exact hlevel h (ih h)
  | unary operator operand ih =>
    rw [longestSpine_unary] at h
    rw [height_unary, nesting_unary, spine_unary]
    exact hlevel h (ih h)
  | binary l operator r ihl ihr =>
    rw [longestSpine_binary] at h
    have hl := ihl (by omega)
    have hr := ihr (by omega)
    have hleft := Nat.mul_le_mul_right (n + 1) (Nat.le_max_left l.nesting r.nesting)
    have hright := Nat.mul_le_mul_right (n + 1) (Nat.le_max_right l.nesting r.nesting)
    rw [height_binary, nesting_binary, spine_binary]
    omega

theorem height_le (e : Expr) : e.height ≤ (e.nesting + 1) * (e.longestSpine + 1) := by
  have hspine := e.spine_le_longestSpine
  have hheight := height_le_of_longestSpine (le_refl e.longestSpine)
  rw [Nat.succ_mul]
  omega

end Expr

namespace Grammar

open Lox.Expr

-- Every operator of the tree is a token of its own.
theorem longestSpine_le_of_derives {p : Phrase} {tokens : List Token} {e : Expr}
    (h : Derives p tokens e) :
    e.longestSpine ≤ tokens.countP fun t => t.data.rank?.isSome := by
  induction h with
  | single h ih => exact ih
  | primary h ih => exact ih
  | literal h => exact Nat.zero_le _
  | @binary rank lefts rights operator s l r hl hk hs hr ihl ihr =>
    have hrank : operator.data.rank? = some rank := rank?_eq_some_iff.mpr ⟨s, hs, hk⟩
    have hoperator : operator.data.rank?.isSome = true := by rw [hrank, Option.isSome_some]
    have hleft := l.spine_le_longestSpine
    have hright := r.spine_le_longestSpine
    rw [List.countP_append, List.countP_cons, if_pos hoperator, longestSpine_binary]
    omega
  | @unary tokens operator s e hk hs h ih =>
    rw [List.countP_cons]
    exact Nat.le_add_right_of_le ih
  | @grouping tokens opener closer e ho h hc ih =>
    rw [List.countP_cons, List.countP_append]
    exact Nat.le_add_right_of_le (Nat.le_add_right_of_le ih)

section Towers

def plus : Token := .ofLexeme (.symbol .plus) "+"

def nilWord : Token := .ofLexeme (.keyword .nilKw) "nil"

-- An operand that is continued with so many operators, and the tree of it. The operators are grouped
-- from the left, each of them above all before it.
def sumTokens (first : List Token) : Nat → List Token
  | 0 => first
  | count + 1 => sumTokens first count ++ [plus, nilWord]

def sum (first : Expr) : Nat → Expr
  | 0 => first
  | count + 1 => .binary (sum first count) plus (.literal .nil)

-- Such a chain, put into parentheses as the first operand of a further one, so many times.
def towerTokens (count : Nat) : Nat → List Token
  | 0 => sumTokens [nilWord] count
  | levels + 1 =>
    sumTokens (.ofLexeme (.symbol .leftParen) "(" ::
      (towerTokens count levels ++ [.ofLexeme (.symbol .rightParen) ")"])) count

def tower (count : Nat) : Nat → Expr
  | 0 => sum (.literal .nil) count
  | levels + 1 => sum (.grouping (tower count levels)) count

variable {tokens : List Token} {first : Expr}

theorem derives_sum (h : Derives .unary tokens first) (count : Nat) :
    Derives .expression (sumTokens tokens count) (sum first count) := by
  have hterm : Derives (.chain .term) (sumTokens tokens count) (sum first count) := by
    induction count with
    | zero => exact h.operandOf .comparison
    | succ count ih =>
      have hoperand : Derives .unary [nilWord] (.literal .nil) := .primary (.literal .nilKw)
      exact .binary ih rfl (by decide) (hoperand.operandOf .term)
  exact .single (.single hterm)

theorem derives_tower (count levels : Nat) :
    Derives .expression (towerTokens count levels) (tower count levels) := by
  induction levels with
  | zero => exact derives_sum (.primary (.literal .nilKw)) count
  | succ levels ih => exact derives_sum (.primary (.grouping rfl ih rfl)) count

theorem nesting_sum (first : Expr) (count : Nat) : (sum first count).nesting = first.nesting := by
  induction count with
  | zero => rfl
  | succ count ih => rw [sum, nesting_binary, nesting_literal, ih, Nat.max_zero]

theorem height_sum (first : Expr) (count : Nat) :
    (sum first count).height = first.height + count := by
  have hfirst := first.height_pos
  induction count with
  | zero => rfl
  | succ count ih =>
    rw [sum, height_binary, height_literal, ih]
    omega

theorem spine_sum (hfirst : first.spine = 0) (count : Nat) : (sum first count).spine = count := by
  induction count with
  | zero => exact hfirst
  | succ count ih => rw [sum, spine_binary, spine_literal, ih, Nat.max_zero]

theorem longestSpine_sum (hfirst : first.spine = 0) (count : Nat) :
    (sum first count).longestSpine = max count first.longestSpine := by
  induction count with
  | zero => exact (Nat.zero_max _).symm
  | succ count ih =>
    rw [sum, longestSpine_binary, spine_sum hfirst, spine_literal, longestSpine_literal, ih]
    omega

theorem nesting_tower (count levels : Nat) : (tower count levels).nesting = levels := by
  induction levels with
  | zero => exact nesting_sum _ count
  | succ levels ih => rw [tower, nesting_sum, nesting_grouping, ih]

theorem height_tower (count levels : Nat) :
    (tower count levels).height = (levels + 1) * (count + 1) := by
  induction levels with
  | zero =>
    rw [tower, height_sum, height_literal]
    omega
  | succ levels ih =>
    rw [tower, height_sum, height_grouping, ih, Nat.succ_mul (levels + 1)]
    omega

theorem longestSpine_tower (count levels : Nat) : (tower count levels).longestSpine = count := by
  induction levels with
  | zero => rw [tower, longestSpine_sum (spine_literal _), longestSpine_literal, Nat.max_zero]
  | succ levels ih =>
    rw [tower, longestSpine_sum (spine_grouping _), longestSpine_grouping, ih, Nat.max_self]

end Towers

theorem parse_of_derives {tokens : List Token} {e : Expr} (h : Derives .expression tokens e)
    (hnesting : e.nesting ≤ 128) : parse tokens = .ok e := by
  rw [parse_eq_ok_iff, Input.ofTokens_of_not_eof (not_isEof_of_derives h)]
  have hend : Stops [] := by simp [Stops]
  exact ⟨[], read_eq_ok_iff.mpr ⟨tokens, (List.append_nil tokens).symm, h, hnesting, hend⟩⟩

-- What is parsed is derived from some of the tokens, within the limit on nesting.
theorem derives_of_parse {tokens : List Token} {e : Expr}
    (h : parse tokens = .ok e ∨ parseComplete tokens = .ok e) :
    e.nesting ≤ 128 ∧ ∃ used, used <+: tokens ∧ Derives .expression used e := by
  rcases h with h | h
  · obtain ⟨length, hends⟩ := parse_eq_ok_iff_endsAt.mp h
    exact ⟨hends.nesting, _, List.take_prefix length tokens, hends.derives⟩
  · obtain ⟨hderives, hnesting⟩ := parseComplete_eq_ok_iff.mp h
    exact ⟨hnesting, _, List.takeWhile_prefix _, hderives⟩

-- A tree is no higher than the limit on nesting and the longest stretch of binary operators directly
-- below one another allow, and it can be just as high. So the height grows only with the number of
-- binary operators among the tokens.
theorem height_le_nesting_and_spine :
    (∀ (tokens : List Token) (e : Expr), parse tokens = .ok e ∨ parseComplete tokens = .ok e →
      e.nesting ≤ 128 ∧ e.height ≤ 129 * (e.longestSpine + 1) ∧
        e.longestSpine ≤ tokens.countP fun t => t.data.rank?.isSome) ∧
    ∀ count, ∃ tokens e, parse tokens = .ok e ∧ parseComplete tokens = .ok e ∧
      e.longestSpine = count ∧ e.height = 129 * (count + 1) := by
  constructor
  · intro tokens e h
    obtain ⟨hnesting, used, hused, hderives⟩ := derives_of_parse h
    refine ⟨hnesting, ?_, (longestSpine_le_of_derives hderives).trans hused.sublist.countP_le⟩
    calc
      e.height ≤ (e.nesting + 1) * (e.longestSpine + 1) := e.height_le
      _ ≤ 129 * (e.longestSpine + 1) := Nat.mul_le_mul_right _ (Nat.succ_le_succ hnesting)
  · intro count
    have hderives := derives_tower count 128
    have hnesting := (nesting_tower count 128).le
    exact ⟨_, _, parse_of_derives hderives hnesting, parseComplete_of_derives hderives hnesting,
      longestSpine_tower count 128, height_tower count 128⟩

-- The limit on nesting leaves the height without a limit. A chain of operators, however long, is no
-- nesting, and makes a tree as high as the chain is long.
theorem height_unbounded :
    ¬ ∃ bound, ∀ (tokens : List Token) (e : Expr),
      parse tokens = .ok e ∨ parseComplete tokens = .ok e → e.height ≤ bound := by
  rintro ⟨bound, hbound⟩
  have hnesting : (tower bound 0).nesting ≤ 128 := by
    rw [nesting_tower]
    exact Nat.zero_le 128
  have hparse := parse_of_derives (derives_tower bound 0) hnesting
  have hheight := hbound _ _ (.inl hparse)
  rw [height_tower] at hheight
  omega

end Grammar

end Lox
