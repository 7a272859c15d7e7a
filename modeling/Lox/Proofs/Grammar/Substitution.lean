import Lox.Proofs.Grammar.Opening

namespace Lox

namespace Expr

-- A tree with a hole in the place of one of its parts.
inductive Context where
  | hole
  | grouping (inner : Context)
  | unary (operator : Token) (operand : Context)
  | left (inner : Context) (operator : Token) (r : Expr)
  | right (l : Expr) (operator : Token) (inner : Context)

namespace Context

def plug (e : Expr) : Context → Expr
  | hole => e
  | grouping inner => .grouping (inner.plug e)
  | unary operator operand => .unary operator (operand.plug e)
  | left inner operator r => .binary (inner.plug e) operator r
  | right l operator inner => .binary l operator (inner.plug e)

-- The number of unary operators and parentheses around the hole.
def depth : Context → Nat
  | hole => 0
  | grouping inner => inner.depth + 1
  | unary _ operand => operand.depth + 1
  | left inner _ _ => inner.depth
  | right _ _ inner => inner.depth

-- The number of tokens in front of the hole.
def position : Context → Nat
  | hole => 0
  | grouping inner => inner.position + 1
  | unary _ operand => operand.position + 1
  | left inner _ _ => inner.position
  | right l _ inner => l.width + 1 + inner.position

variable (context other : Context) (e : Expr) (value v : Literal)

-- What fills the hole nests inside all that is around the hole.
theorem nesting_plug :
    (context.plug e).nesting =
      max (context.plug (.literal value)).nesting (context.depth + e.nesting) := by
  induction context with
  | hole => simp [plug, depth]
  | grouping inner ih | unary operator inner ih =>
    simp only [plug, nesting_grouping, nesting_unary, depth, ih]
    omega
  | left inner operator r ih | right l operator inner ih =>
    simp only [plug, nesting_binary, depth, ih]
    omega

theorem position_lt_width : context.position < (context.plug (.literal value)).width := by
  induction context with
  | hole => exact Nat.one_pos
  | grouping inner ih => exact Nat.lt_succ_of_lt (Nat.succ_lt_succ ih)
  | unary operator inner ih => exact Nat.succ_lt_succ ih
  | left inner operator r ih =>
    have hwidth : ((left inner operator r).plug (.literal value)).width =
        (inner.plug (.literal value)).width + 1 + r.width := rfl
    rw [hwidth, position]
    omega
  | right l operator inner ih => exact Nat.add_lt_add_left ih _

variable {context other value v}

-- Where a leaf stands is all that can set the ways apart in which it is taken out of a tree.
theorem eq_of_plug_eq (h : context.plug (.literal value) = other.plug (.literal v))
    (hposition : context.position = other.position) : context = other := by
  induction context generalizing other with
  | hole =>
    cases other with
    | hole => rfl
    | grouping | unary | left | right => cases h
  | grouping inner ih =>
    cases other with
    | grouping inner' => rw [ih (Expr.grouping.inj h) (Nat.succ.inj hposition)]
    | hole | unary | left | right => cases h
  | unary operator inner ih =>
    cases other with
    | unary operator' inner' =>
      obtain ⟨rfl, hinner⟩ := Expr.unary.inj h
      rw [ih hinner (Nat.succ.inj hposition)]
    | hole | grouping | left | right => cases h
  | left inner operator r ih =>
    cases other with
    | left inner' operator' r' =>
      obtain ⟨hinner, rfl, rfl⟩ := Expr.binary.inj h
      rw [ih hinner hposition]
    | right l operator' inner' =>
      obtain ⟨rfl, -, -⟩ := Expr.binary.inj h
      have hlt := inner.position_lt_width value
      simp only [position] at hposition
      omega
    | hole | grouping | unary => cases h
  | right l operator inner ih =>
    cases other with
    | left inner' operator' r =>
      obtain ⟨rfl, -, -⟩ := Expr.binary.inj h
      have hlt := inner'.position_lt_width v
      simp only [position] at hposition
      omega
    | right l' operator' inner' =>
      obtain ⟨rfl, rfl, hinner⟩ := Expr.binary.inj h
      rw [ih hinner (Nat.add_left_cancel hposition)]
    | hole | grouping | unary => cases h

-- As long as nothing around the hole nests too deeply, only what fills it can.
theorem firstInside_plug {limit : Nat} (h : (context.plug (.literal value)).nesting ≤ limit) :
    (context.plug e).firstInside limit =
      (e.firstInside (limit - context.depth)).map (· + context.position) := by
  induction context generalizing limit with
  | hole => simp [plug, depth, position]
  | grouping inner ih | unary operator inner ih =>
    cases limit with
    | zero => cases h
    | succ room =>
      simp only [plug, firstInside_grouping_succ, firstInside_unary_succ, depth, position,
        Nat.add_sub_add_right, ih (Nat.le_of_succ_le_succ h), Option.map_map]
      rfl
  | left inner operator r ih =>
    rw [plug, nesting_binary, Nat.max_le] at h
    rw [plug, firstInside_binary, ih h.1, firstInside_eq_none_iff.mpr h.2, Option.map_none,
      Option.or_none]
    rfl
  | right l operator inner ih =>
    rw [plug, nesting_binary, Nat.max_le] at h
    rw [plug, firstInside_binary, ih h.2, firstInside_eq_none_iff.mpr h.1, Option.none_or,
      Option.map_map]
    congr 1
    funext index
    simp only [Function.comp_apply, position]
    omega

end Context

end Expr

namespace Grammar

open Lox.Expr

-- Two ways to single out a token leave one of the tokens in front of the other, unless they are the
-- same.
theorem append_cons_cases {a b : Token} {lefts rights before after : List Token}
    (h : lefts ++ a :: rights = before ++ b :: after) :
    (∃ between, lefts = before ++ b :: between ∧ after = between ++ a :: rights) ∨
    a = b ∨
    ∃ between, before = lefts ++ a :: between ∧ rights = between ++ b :: after := by
  rcases List.append_eq_append_iff.mp h with ⟨between, hbefore, hrest⟩ | ⟨between, hlefts, hrest⟩
  · cases between with
    | nil => exact .inr (.inl (List.cons.inj hrest).1)
    | cons c between =>
      obtain ⟨rfl, hrights⟩ := List.cons.inj hrest
      exact .inr (.inr ⟨between, hbefore, hrights⟩)
  · cases between with
    | nil => exact .inr (.inl (List.cons.inj hrest).1.symm)
    | cons c between =>
      obtain ⟨rfl, hafter⟩ := List.cons.inj hrest
      exact .inl ⟨between, hlefts, hafter⟩

section Substitute

variable {hole : Token} {value : Literal}

theorem ne_of_kind_symbol {t : Token} {s : Symbol} (h : t.kind = .symbol s)
    (hvalue : hole.data.literal? = some value) : t ≠ hole := by
  rintro rfl
  rw [(isOperator_of_kind h).2] at hvalue
  cases hvalue

-- A token with a value is a leaf of the tree, and any other primary may take its place.
theorem Derives.exists_context {p : Phrase} {tokens before after : List Token} {e : Expr}
    (h : Derives p tokens e) (htokens : tokens = before ++ hole :: after)
    (hvalue : hole.data.literal? = some value) :
    ∃ context : Context, context.plug (.literal value) = e ∧ context.position = before.length ∧
      ∀ new f, Derives .primary new f → Derives p (before ++ new ++ after) (context.plug f) := by
  induction h generalizing before after with
  | single h ih =>
    obtain ⟨context, he, hposition, hnew⟩ := ih htokens
    exact ⟨context, he, hposition, fun new f hf => .single (hnew new f hf)⟩
  | primary h ih =>
    obtain ⟨context, he, hposition, hnew⟩ := ih htokens
    exact ⟨context, he, hposition, fun new f hf => .primary (hnew new f hf)⟩
  | @binary rank lefts rights operator s l r hl hk hs hr ihl ihr =>
    obtain ⟨between, hlefts, rfl⟩ | hsame | ⟨between, rfl, hrights⟩ := append_cons_cases htokens
    · obtain ⟨context, rfl, hposition, hnew⟩ := ihl hlefts
      refine ⟨.left context operator r, rfl, hposition, fun new f hf => ?_⟩
      rw [← List.append_assoc]
      exact .binary (hnew new f hf) hk hs hr
    · exact absurd hsame (ne_of_kind_symbol hk hvalue)
    · obtain ⟨context, rfl, hposition, hnew⟩ := ihr hrights
      refine ⟨.right l operator context, rfl, ?_, fun new f hf => ?_⟩
      · rw [Context.position, hposition, width_of_derives hl, List.length_append, List.length_cons]
        omega
      · have hall := Derives.binary hl hk hs (hnew new f hf)
        simpa [Context.plug] using hall
  | @unary tokens operator s e hk hs h ih =>
    rcases List.cons_eq_append_iff.mp htokens with ⟨-, hhead⟩ | ⟨front, rfl, hrest⟩
    · exact absurd (List.cons.inj hhead).1.symm (ne_of_kind_symbol hk hvalue)
    · obtain ⟨context, rfl, hposition, hnew⟩ := ih hrest
      exact ⟨.unary operator context, rfl, congrArg (· + 1) hposition,
        fun new f hf => .unary hk hs (hnew new f hf)⟩
  | @literal token v h =>
    rcases List.cons_eq_append_iff.mp htokens with ⟨rfl, hhead⟩ | ⟨front, rfl, hrest⟩
    · obtain ⟨rfl, rfl⟩ := List.cons.inj hhead
      rw [literal?_eq_some_iff.mpr h] at hvalue
      cases hvalue
      refine ⟨.hole, rfl, rfl, fun new f hf => ?_⟩
      rwa [List.nil_append, List.append_nil]
    · simp at hrest
  | @grouping tokens opener closer e hopener h hcloser ih =>
    rcases List.cons_eq_append_iff.mp htokens with ⟨-, hhead⟩ | ⟨front, rfl, hrest⟩
    · exact absurd (List.cons.inj hhead).1.symm (ne_of_kind_symbol hopener hvalue)
    · obtain ⟨between, hinner, rfl⟩ | hsame | ⟨between, -, hnil⟩ := append_cons_cases hrest
      · obtain ⟨context, rfl, hposition, hnew⟩ := ih hinner
        refine ⟨.grouping context, rfl, congrArg (· + 1) hposition, fun new f hf => ?_⟩
        have hall := Derives.grouping hopener (hnew new f hf) hcloser
        simpa [Context.plug] using hall
      · exact absurd hsame (ne_of_kind_symbol hcloser hvalue)
      · simp at hnil

end Substitute

theorem derives_of_parseComplete {tokens : List Token} {e : Expr}
    (heof : ∀ t ∈ tokens, t.isEof = false) (h : parseComplete tokens = .ok e) :
    Derives .expression tokens e ∧ e.nesting ≤ 128 := by
  have hparse := parseComplete_eq_ok_iff.mp h
  rwa [Input.ofTokens_of_not_eof heof] at hparse

theorem parseComplete_of_derives {tokens : List Token} {e : Expr}
    (h : Derives .expression tokens e) (hnesting : e.nesting ≤ 128) :
    parseComplete tokens = .ok e := by
  apply parseComplete_eq_ok_iff.mpr
  rw [Input.ofTokens_of_not_eof (not_isEof_of_derives h)]
  exact ⟨h, hnesting⟩

-- An expression in parentheses can take the place of any leaf, and the rest of the tree stays as it
-- is. Only when the levels of both add up to too many is there a fault, at the first of the new tokens
-- that opens a level with 128 others around it.
theorem parseComplete_substitute {before after inner : List Token} {hole opener closer : Token}
    {e f : Expr} {value : Literal} (heof : ∀ t ∈ before ++ hole :: after, t.isEof = false)
    (he : parseComplete (before ++ hole :: after) = .ok e)
    (hinner : ∀ t ∈ inner, t.isEof = false) (hf : parseComplete inner = .ok f)
    (hvalue : hole.data.literal? = some value) (hopener : opener.kind = .symbol .leftParen)
    (hcloser : closer.kind = .symbol .rightParen) :
    let tokens := before ++ (opener :: (inner ++ [closer])) ++ after
    ∃ context : Context,
      (context.plug (.literal value) = e ∧ context.position = before.length) ∧
      (∀ (other : Context) v, other.plug (.literal v) = e → other.position = before.length →
        other = context) ∧
      (context.depth + 1 + f.nesting ≤ 128 →
        parseComplete tokens = .ok (context.plug (.grouping f))) ∧
      (128 < context.depth + 1 + f.nesting →
        ∃ index t, (context.plug (.grouping f)).firstInside 128 = some index ∧
          before.length ≤ index ∧ index ≤ before.length + inner.length ∧
          tokens[index]? = some t ∧ Opens t ∧
          parseComplete tokens = .error ⟨.nestingTooDeep, t⟩) := by
  intro tokens
  obtain ⟨hderives, hlimit⟩ := derives_of_parseComplete heof he
  obtain ⟨hgroup, -⟩ := derives_of_parseComplete hinner hf
  obtain ⟨context, rfl, hposition, hnew⟩ := hderives.exists_context rfl hvalue
  have htokens : Derives .expression tokens (context.plug (.grouping f)) :=
    hnew _ _ (.grouping hopener hgroup hcloser)
  have hnesting := context.nesting_plug (.grouping f) value
  rw [nesting_grouping] at hnesting
  refine ⟨context, ⟨rfl, hposition⟩, ?_, ?_, ?_⟩
  · intro other v hother hsame
    exact Context.eq_of_plug_eq hother (hsame.trans hposition.symm)
  · intro hroom
    exact parseComplete_of_derives htokens (by omega)
  · intro hdeep
    have hsome : (context.plug (.grouping f)).firstInside 128 ≠ none := by
      rw [Ne, firstInside_eq_none_iff]
      omega
    obtain ⟨index, hindex⟩ := Option.ne_none_iff_exists'.mp hsome
    obtain ⟨t, ht, hopens, hparse⟩ := parseComplete_of_firstInside htokens hindex
    have hplaced := hindex
    rw [Context.firstInside_plug _ hlimit, Option.map_eq_some_iff] at hplaced
    obtain ⟨i, hi, rfl⟩ := hplaced
    have hlt := firstInside_lt_width hi
    have hwidth : (Expr.grouping f).width = inner.length + 2 :=
      congrArg (· + 2) (width_of_derives hgroup)
    exact ⟨i + context.position, t, hindex, by omega, by omega, ht, hopens, hparse⟩

-- The operand of a unary operator becomes an expression in parentheses, while the operator behind it
-- still has the unary one on its left.
theorem parseComplete_substitute_operand :
    let token (data : TokenData) : Token := .ofLexeme data ""
    let bang := token (.symbol .bang)
    let minus := token (.symbol .minus)
    let whole (operand : List Token) := bang :: (operand ++ [minus, token (.keyword .trueKw)])
    let tree (operand : Expr) := Expr.binary (.unary bang operand) minus (.literal (.bool true))
    let inner := Expr.binary (.literal .nil) minus (.literal (.bool false))
    let tokens := [token (.keyword .nilKw), minus, token (.keyword .falseKw)]
    parseComplete (whole [token (.keyword .nilKw)]) = .ok (tree (.literal .nil)) ∧
      parseComplete tokens = .ok inner ∧
      parseComplete (whole (token (.symbol .leftParen) :: (tokens ++ [token (.symbol .rightParen)]))) =
        .ok (tree (.grouping inner)) := by
  intro token bang minus whole tree inner tokens
  have hminus : Token.kind minus = .symbol .minus := rfl
  have hbang : Token.kind bang = .symbol .bang := rfl
  have hword (k : Keyword) {value : Literal} (h : Denotes (.keyword k) value) :
      Derives .unary [token (.keyword k)] (.literal value) := .primary (.literal h)
  have hterm : Symbol.minus ∈ binaryOperators .term := by decide
  have hwhole : Derives .expression (whole [token (.keyword .nilKw)]) (tree (.literal .nil)) := by
    have hoperand := Derives.unary hbang (by decide) (hword .nilKw .nilKw)
    have hchain := Derives.binary (.single (hoperand.operandOf .term)) hminus hterm
      ((hword .trueKw .trueKw).operandOf .term)
    exact .single (.single hchain)
  have hinner : Derives .expression tokens inner := by
    have hchain := Derives.binary (.single ((hword .nilKw .nilKw).operandOf .term)) hminus hterm
      ((hword .falseKw .falseKw).operandOf .term)
    exact .single (.single hchain)
  have he := parseComplete_of_derives hwhole (by decide)
  have hf := parseComplete_of_derives hinner (by decide)
  have hopener : Token.kind (token (.symbol .leftParen)) = .symbol .leftParen := rfl
  have hcloser : Token.kind (token (.symbol .rightParen)) = .symbol .rightParen := rfl
  obtain ⟨context, -, hunique, hroom, -⟩ :=
    @parseComplete_substitute [bang] [minus, token (.keyword .trueKw)] tokens
      (token (.keyword .nilKw)) _ _ _ _ .nil (not_isEof_of_derives hwhole) he
      (not_isEof_of_derives hinner) hf rfl hopener hcloser
  let around : Context := .left (.unary bang .hole) minus (.literal (.bool true))
  obtain rfl : around = context := hunique around .nil rfl rfl
  exact ⟨he, hf, hroom (by decide)⟩

-- With 127 unary operators in front of it the parenthesis is still within the limit, and the operator
-- behind it is not.
example :
    let token (s : Symbol) : Token := .ofLexeme (.symbol s) s.text
    parseComplete (List.replicate 127 (token .bang) ++ [token .leftParen, token .minus]) =
      .error ⟨.nestingTooDeep, token .minus⟩ := by
  set_option maxRecDepth 10000 in rfl

end Grammar

end Lox
