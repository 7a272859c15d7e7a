import Lox.Proofs.Grammar.End

namespace Lox

namespace Expr

-- The number of tokens that a tree is written with.
def width : Expr → Nat :=
  fold (fun _ => 1) (fun inner => inner + 2) (fun _ operand => operand + 1)
    (fun left _ right => left + 1 + right)

-- A token behind which a level of nesting begins: how many tokens of the tree are in front of it,
-- and how many other levels enclose it.
structure Opening where
  index : Nat
  enclosing : Nat

def Opening.shift (tokens levels : Nat) (o : Opening) : Opening :=
  ⟨o.index + tokens, o.enclosing + levels⟩

-- The unary operators and the opening parentheses of a tree, in the order of its tokens.
def openings : Expr → List Opening
  | literal _ => []
  | grouping inner => ⟨0, 0⟩ :: inner.openings.map (.shift 1 1)
  | unary _ operand => ⟨0, 0⟩ :: operand.openings.map (.shift 1 1)
  | binary left _ right => left.openings ++ right.openings.map (.shift (left.width + 1) 0)

-- Where the first token of a tree stands that opens a level inside so many others.
def firstInside (levels : Nat) (e : Expr) : Option Nat :=
  (e.openings.find? fun o => o.enclosing == levels).map Opening.index

section Openings

variable (levels tokens more : Nat) (found : List Opening) (e l r : Expr) (o : Token)

theorem find?_shift :
    ((found.map (Opening.shift tokens more)).find? fun o => o.enclosing == levels + more).map
        Opening.index =
      ((found.find? fun o => o.enclosing == levels).map Opening.index).map (· + tokens) := by
  have hsame : (fun o : Opening => o.enclosing == levels + more) ∘ Opening.shift tokens more =
      fun o => o.enclosing == levels := by
    funext o
    simp [Opening.shift]
  rw [List.find?_map, hsame, Option.map_map, Option.map_map]
  rfl

@[simp] theorem firstInside_literal (value : Literal) :
    (literal value).firstInside levels = none := rfl

@[simp] theorem firstInside_grouping_zero : (grouping e).firstInside 0 = some 0 := rfl

@[simp] theorem firstInside_grouping_succ :
    (grouping e).firstInside (levels + 1) = (e.firstInside levels).map (· + 1) :=
  find?_shift levels 1 1 e.openings

@[simp] theorem firstInside_unary_zero : (unary o e).firstInside 0 = some 0 := rfl

@[simp] theorem firstInside_unary_succ :
    (unary o e).firstInside (levels + 1) = (e.firstInside levels).map (· + 1) :=
  find?_shift levels 1 1 e.openings

theorem firstInside_binary :
    (binary l o r).firstInside levels =
      (l.firstInside levels).or ((r.firstInside levels).map (· + (l.width + 1))) := by
  have hright := find?_shift levels (l.width + 1) 0 r.openings
  rw [Nat.add_zero] at hright
  rw [firstInside, openings, List.find?_append, Option.map_or, hright]
  rfl

end Openings

-- A tree keeps within a limit exactly if none of its levels begins inside so many others.
theorem firstInside_eq_none_iff {limit : Nat} {e : Expr} :
    e.firstInside limit = none ↔ e.nesting ≤ limit := by
  induction e generalizing limit with
  | literal value => simp
  | grouping inner ih | unary o inner ih =>
    cases limit with
    | zero => simp
    | succ room => simp [ih]
  | binary l o r ihl ihr =>
    rw [firstInside_binary, Option.or_eq_none_iff, Option.map_eq_none_iff, ihl, ihr,
      nesting_binary, Nat.max_le]

theorem width_pos (e : Expr) : 0 < e.width := by
  induction e with
  | literal value => exact Nat.one_pos
  | grouping inner ih | unary o inner ih => exact Nat.succ_pos _
  | binary l o r ihl ihr => exact Nat.lt_of_lt_of_le (Nat.succ_pos l.width) (Nat.le_add_right _ _)

-- None of the openings is the last token of a tree.
theorem index_lt_width {e : Expr} {o : Opening} (h : o ∈ e.openings) : o.index + 1 < e.width := by
  induction e generalizing o with
  | literal value => cases h
  | grouping inner ih | unary operator inner ih =>
    have hpos := inner.width_pos
    rcases List.mem_cons.mp h with rfl | h
    · simp only [width, fold] at hpos ⊢
      omega
    · obtain ⟨inside, hinside, rfl⟩ := List.mem_map.mp h
      have hlt := ih hinside
      simp only [width, fold, Opening.shift] at hlt ⊢
      omega
  | binary l operator r ihl ihr =>
    rcases List.mem_append.mp h with h | h
    · have hlt := ihl h
      simp only [width, fold] at hlt ⊢
      omega
    · obtain ⟨inside, hinside, rfl⟩ := List.mem_map.mp h
      have hlt := ihr hinside
      simp only [width, fold, Opening.shift] at hlt ⊢
      omega

theorem firstInside_lt_width {e : Expr} {levels index : Nat}
    (h : e.firstInside levels = some index) : index + 1 < e.width := by
  obtain ⟨o, ho, rfl⟩ := Option.map_eq_some_iff.mp h
  exact index_lt_width (List.mem_of_find?_eq_some ho)

end Expr

namespace Grammar

open Lox.Expr

theorem width_of_derives {p : Phrase} {tokens : List Token} {e : Expr} (h : Derives p tokens e) :
    e.width = tokens.length := by
  induction h with
  | single h ih | primary h ih => exact ih
  | @binary rank lefts rights operator s l r hl hk hs hr ihl ihr =>
    have hwidth : (binary l operator r).width = l.width + 1 + r.width := rfl
    rw [hwidth, ihl, ihr, List.length_append, List.length_cons]
    omega
  | unary hk hs h ih => exact congrArg (· + 1) ih
  | literal h => rfl
  | @grouping tokens opener closer e ho h hc ih =>
    have hwidth : (Expr.grouping e).width = e.width + 2 := rfl
    simp [hwidth, ih]

-- At each of the openings of a tree there is a token that opens a level.
theorem exists_opens_of_derives {p : Phrase} {tokens : List Token} {e : Expr}
    (h : Derives p tokens e) :
    ∀ o ∈ e.openings, ∃ t, tokens[o.index]? = some t ∧ Opens t := by
  induction h with
  | single h ih | primary h ih => exact ih
  | @binary rank lefts rights operator s l r hl hk hs hr ihl ihr =>
    intro o ho
    rcases List.mem_append.mp ho with ho | ho
    · obtain ⟨t, ht, hopens⟩ := ihl o ho
      have hlt := (List.getElem?_eq_some_iff.mp ht).1
      exact ⟨t, by rw [List.getElem?_append_left hlt, ht], hopens⟩
    · obtain ⟨inner, hinner, rfl⟩ := List.mem_map.mp ho
      obtain ⟨t, ht, hopens⟩ := ihr inner hinner
      refine ⟨t, ?_, hopens⟩
      rw [List.append_cons, ← ht]
      have hindex : (inner.shift (l.width + 1) 0).index = (lefts ++ [operator]).length + inner.index := by
        simp [Opening.shift, width_of_derives hl, Nat.add_comm]
      rw [hindex, List.getElem?_append_right (Nat.le_add_right _ _), Nat.add_sub_cancel_left]
  | @unary tokens operator s e hk hs h ih =>
    intro o ho
    rcases List.mem_cons.mp ho with rfl | ho
    · exact ⟨operator, rfl, .inl (isUnary_iff.mpr ⟨s, hs, hk⟩)⟩
    · obtain ⟨inner, hinner, rfl⟩ := List.mem_map.mp ho
      exact ih inner hinner
  | literal h => simp [openings]
  | @grouping tokens opener closer e hopener h hc ih =>
    intro o ho
    rcases List.mem_cons.mp ho with rfl | ho
    · exact ⟨opener, rfl, .inr hopener⟩
    · obtain ⟨inner, hinner, rfl⟩ := List.mem_map.mp ho
      obtain ⟨t, ht, hopens⟩ := ih inner hinner
      have hlt := (List.getElem?_eq_some_iff.mp ht).1
      exact ⟨t, (List.getElem?_append_left hlt).trans ht, hopens⟩

-- A reader stops at the first token that opens a level for which there is no room.
def Limited (operand : Reader) (limit : Nat) : Prop :=
  ∀ ⦃used e index⦄, Derives .unary used e → e.firstInside limit = some index → ∀ rest,
    operand.read (used ++ rest) = .error ⟨.nestingTooDeep, (used ++ rest).drop index⟩

section Chain

variable {operand : Reader} {limit index : Nat} {used : List Token} {e : Expr}

theorem Limited.readInto_operand (limited : Limited operand limit) (h : Derives .unary used e)
    (hindex : e.firstInside limit = some index) (fill : Expr → Expr) (rest : List Token) :
    readInto operand fill (used ++ rest) =
      .error ⟨.nestingTooDeep, (used ++ rest).drop index⟩ := by
  simp only [readInto, limited h hindex rest]

-- The parts of a phrase are read one after the other, up to the one that nests too deeply.
theorem Exact.readInto_limited (exact : Exact operand limit) (limited : Limited operand limit)
    {p : Phrase} (h : Derives p used e) (hindex : e.firstInside limit = some index)
    (fill : Expr → Expr) (hfill : HandsOn fill p.level) (rest : List Token) :
    readInto operand fill (used ++ rest) =
      .error ⟨.nestingTooDeep, (used ++ rest).drop index⟩ := by
  induction h generalizing fill rest index with
  | @single rank used e h ih =>
    apply ih hindex fill
    rw [Phrase.level_operandOf]
    exact hfill.mono (Nat.le_succ _)
  | @binary rank lefts rights operator s l r hl hk hs hr ihl ihr =>
    have hrank : operator.data.rank? = some rank := rank?_eq_some_iff.mpr ⟨s, hs, hk⟩
    rw [List.append_assoc]
    cases hleft : l.firstInside limit with
    | some i =>
      rw [firstInside_binary, hleft, Option.some_or] at hindex
      cases hindex
      exact ihl hleft fill hfill _
    | none =>
      rw [firstInside_binary, hleft, Option.none_or, Option.map_eq_some_iff] at hindex
      obtain ⟨i, hi, rfl⟩ := hindex
      have hnesting := firstInside_eq_none_iff.mp hleft
      have hdrop : (lefts ++ operator :: (rights ++ rest)).drop (i + (l.width + 1)) =
          (rights ++ rest).drop i := by
        have hlength : i + (l.width + 1) = (lefts ++ [operator]).length + i := by
          rw [width_of_derives hl, List.length_append, List.length_singleton, Nat.add_comm]
        rw [List.append_cons lefts operator (rights ++ rest), hlength, List.drop_length_add_append]
      calc
        readInto operand fill (lefts ++ operator :: (rights ++ rest))
          = extend operand ⟨fill l, operator :: (rights ++ rest)⟩ :=
            exact.readInto_append hl hnesting fill hfill _
        _ = readInto operand (fun r => fill (.binary l operator r)) (rights ++ rest) :=
            extend_of_derives hl hrank hfill _
        _ = .error ⟨.nestingTooDeep, (rights ++ rest).drop i⟩ := by
            apply ihr hi
            rw [Phrase.level_operandOf]
            exact hfill.binary hrank
        _ = _ := by
            rw [← hdrop]
            rfl
  | unary hk hs h ih => exact limited.readInto_operand (.unary hk hs h) hindex fill rest
  | primary h ih => exact limited.readInto_operand (.primary h) hindex fill rest
  | literal h => cases hindex
  | grouping ho h hc ih =>
    exact limited.readInto_operand (.primary (.grouping ho h hc)) hindex fill rest

theorem Exact.readChain_limited (exact : Exact operand limit) (limited : Limited operand limit)
    (h : Derives .expression used e) (hindex : e.firstInside limit = some index)
    (rest : List Token) :
    readChain operand (used ++ rest) = .error ⟨.nestingTooDeep, (used ++ rest).drop index⟩ := by
  rw [readChain_eq_readInto]
  exact exact.readInto_limited limited h hindex id (handsOn_id _) rest

end Chain

theorem limited_readOperand {deeper : Option Reader} {limit : Nat} (hbelow : Below deeper limit)
    (hlimited : ∀ operand room, deeper = some operand → limit = room + 1 → Limited operand room)
    {used : List Token} {e : Expr} {index : Nat} (h : Derives .unary used e)
    (hindex : e.firstInside limit = some index) (rest : List Token) :
    readOperand deeper (used ++ rest) =
      .error ⟨.nestingTooDeep, (used ++ rest).drop index⟩ := by
  apply readOperand_eq_of_outcome
  cases h with
  | @unary tokens operator s e hk hs h =>
    have hunary : operator.data.isUnary = true := isUnary_iff.mpr ⟨s, hs, hk⟩
    cases limit with
    | zero =>
      cases hindex
      exact .tooDeep (.inl hunary) hbelow
    | succ room =>
      obtain ⟨operand, rfl, -⟩ := hbelow
      rw [firstInside_unary_succ, Option.map_eq_some_iff] at hindex
      obtain ⟨i, hi, rfl⟩ := hindex
      exact .unaryFault hunary rfl (hlimited operand room rfl rfl h hi rest)
  | primary h =>
    cases h with
    | literal => cases hindex
    | @grouping tokens opener closer e hopener h hcloser =>
      cases limit with
      | zero =>
        cases hindex
        exact .tooDeep (.inr hopener) hbelow
      | succ room =>
        obtain ⟨operand, rfl, hexact⟩ := hbelow
        rw [firstInside_grouping_succ, Option.map_eq_some_iff] at hindex
        obtain ⟨i, hi, rfl⟩ := hindex
        have hread := hexact.readChain_limited (hlimited operand room rfl rfl) h hi (closer :: rest)
        simpa using Outcome.groupFault hopener rfl hread

theorem limited_operand (room : Nat) : Limited (operand room) room := by
  induction room with
  | zero =>
    have hbelow : Below none 0 := rfl
    intro used e index h hindex rest
    exact limited_readOperand hbelow (by simp) h hindex rest
  | succ room ih =>
    have hbelow : Below (some (operand room)) (room + 1) := ⟨_, rfl, exact_operand room⟩
    intro used e index h hindex rest
    refine limited_readOperand hbelow ?_ h hindex rest
    rintro _ _ ⟨⟩ ⟨⟩
    exact ih

-- Tokens that would make a tree with too many levels are at fault where the first level begins that
-- is one too many.
theorem parseComplete_of_firstInside {tokens : List Token} {e : Expr} {index : Nat}
    (h : Derives .expression tokens e) (hindex : e.firstInside maxNesting = some index) :
    ∃ t, tokens[index]? = some t ∧ Opens t ∧ parseComplete tokens = .error ⟨.nestingTooDeep, t⟩ := by
  have hbody : (Input.ofTokens tokens).body = tokens :=
    congrArg Input.body (Input.ofTokens_of_not_eof (not_isEof_of_derives h))
  have hread := (exact_operand maxNesting).readChain_limited (limited_operand maxNesting) h hindex []
  rw [List.append_nil] at hread
  have hparse : parseComplete tokens =
      .error ((Input.ofTokens tokens).error ⟨.nestingTooDeep, tokens.drop index⟩) := by
    rw [parseComplete, hbody, Expr.read, hread]
  obtain ⟨o, ho, rfl⟩ := Option.map_eq_some_iff.mp hindex
  obtain ⟨t, ht, hopens⟩ := exists_opens_of_derives h o (List.mem_of_find?_eq_some ho)
  refine ⟨t, ht, hopens, ?_⟩
  have hhead : (tokens.drop o.index).headD (Input.ofTokens tokens).close = t := by
    rw [List.headD_eq_head?_getD, List.head?_drop, ht, Option.getD_some]
  rw [hparse, Input.error, hhead]

end Grammar

end Lox
