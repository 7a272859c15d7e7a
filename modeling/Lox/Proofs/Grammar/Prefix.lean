import Lox.Proofs.Grammar.Recognition
import Lox.Proofs.Text.Split

namespace Lox

theorem Symbol.eq_of_text {s other : Symbol} (h : s.text = other.text) : s = other := by
  have hfind (s : Symbol) : Symbol.all.find? (fun other => other.text = s.text) = some s := by
    cases s <;> rfl
  exact Text.eq_of_find?_eq hfind h

namespace Expr

-- Characters among which there is none of those that set the parts of a printed tree apart.
def Unbroken (text : List Char) : Prop := ∀ c ∈ text, c ∉ [' ', '(', ')']

instance : DecidablePred Unbroken :=
  fun text => List.decidableBAll (fun c => c ∉ [' ', '(', ')']) text

-- What can stand behind a part of a printed tree.
def Parted (rest : List Char) : Prop := ∀ c ∈ rest.head?, c = ' ' ∨ c = ')'

-- An operator that is written as the symbol that it is.
def IsSign (o : Token) : Prop :=
  ∃ s : Symbol, (s.isUnary || s.rank?.isSome) = true ∧ o.kind = .symbol s ∧ o.lexeme = s.text

-- A tree with signs for operators, and no leaf that could be taken for several parts of it.
structure Readable (e : Expr) : Prop where
  operators : ∀ o ∈ e.operators, IsSign o
  leaves : ∀ value ∈ e.leaves, Unbroken value.text.toList

-- The same kind of node at every position, with the same operators, and with leaves that are
-- printed alike.
inductive SameShape : Expr → Expr → Prop where
  | literal {x y : Literal} (h : x.text = y.text) : SameShape (.literal x) (.literal y)
  | grouping {e f : Expr} (h : SameShape e f) : SameShape (.grouping e) (.grouping f)
  | unary {p q : Token} {e f : Expr} (hkind : p.kind = q.kind) (h : SameShape e f) :
    SameShape (.unary p e) (.unary q f)
  | binary {l m r s : Expr} {p q : Token} (hleft : SameShape l m) (hkind : p.kind = q.kind)
    (hright : SameShape r s) : SameShape (.binary l p r) (.binary m q s)

section Words

variable {w v rest behind : List Char}

theorem Unbroken.cons {c : Char} (hc : c ∉ [' ', '(', ')']) (hw : Unbroken w) : Unbroken (c :: w) :=
  List.forall_mem_cons.mpr ⟨hc, hw⟩

theorem Unbroken.append (hw : Unbroken w) (hv : Unbroken v) : Unbroken (w ++ v) :=
  List.forall_mem_append.mpr ⟨hw, hv⟩

theorem parted_space (rest : List Char) : Parted (' ' :: rest) := by
  rintro _ ⟨⟩
  exact .inl rfl

theorem parted_paren (rest : List Char) : Parted (')' :: rest) := by
  rintro _ ⟨⟩
  exact .inr rfl

-- What is unbroken ends where a part can end, and nowhere else.
theorem takeWhile_of_unbroken (hw : Unbroken w) (hrest : Parted rest) :
    (w ++ rest).takeWhile (· ∉ [' ', '(', ')']) = w := by
  rw [List.takeWhile_append_of_pos (by simpa [Unbroken] using hw)]
  cases rest with
  | nil => rw [List.takeWhile_nil, List.append_nil]
  | cons c rest => rcases hrest c rfl with rfl | rfl <;> simp

theorem unbroken_inj (hw : Unbroken w) (hv : Unbroken v) (hrest : Parted rest)
    (hbehind : Parted behind) (h : w ++ rest = v ++ behind) : w = v ∧ rest = behind := by
  have hsame : w = v := by
    rw [← takeWhile_of_unbroken hw hrest, h, takeWhile_of_unbroken hv hbehind]
  subst hsame
  exact ⟨rfl, List.append_cancel_left h⟩

theorem unbroken_ne_paren (hw : Unbroken w) (hrest : Parted rest) :
    w ++ rest ≠ '(' :: behind := by
  intro h
  cases w with
  | nil =>
    rw [List.nil_append] at h
    subst h
    rcases hrest '(' rfl with h | h <;> cases h
  | cons c w =>
    cases h
    exact hw '(' List.mem_cons_self (by simp)

-- What comes first behind a parenthesis is told apart from the rest by the space.
theorem head_inj (hw : Unbroken w) (hv : Unbroken v)
    (h : '(' :: (w ++ ' ' :: rest) = '(' :: (v ++ ' ' :: behind)) : w = v ∧ rest = behind := by
  obtain ⟨hsame, htail⟩ :=
    unbroken_inj hw hv (parted_space rest) (parted_space behind) (List.cons.inj h).2
  exact ⟨hsame, (List.cons.inj htail).2⟩

end Words

section Texts

variable (rest : List Char)

theorem text_grouping_append (e : Expr) : (grouping e).text.toList ++ rest =
    '(' :: ("group".toList ++ ' ' :: (e.text.toList ++ ')' :: rest)) := by
  have htext : (grouping e).text = parenthesized "group" [e.text] := rfl
  simp [htext, parenthesized]

theorem text_unary_append (o : Token) (e : Expr) : (unary o e).text.toList ++ rest =
    '(' :: (o.lexeme.toList ++ ' ' :: (e.text.toList ++ ')' :: rest)) := by
  have htext : (unary o e).text = parenthesized o.lexeme [e.text] := rfl
  simp [htext, parenthesized]

theorem text_binary_append (l : Expr) (o : Token) (r : Expr) :
    (binary l o r).text.toList ++ rest =
      '(' :: (o.lexeme.toList ++ ' ' :: (l.text.toList ++ ' ' :: (r.text.toList ++ ')' :: rest))) := by
  have htext : (binary l o r).text = parenthesized o.lexeme [l.text, r.text] := rfl
  simp [htext, parenthesized]

end Texts

section Parts

variable {o : Token} {e l r : Expr}

theorem Readable.inner (h : Readable (grouping e)) : Readable e := ⟨h.operators, h.leaves⟩

theorem Readable.sign (h : Readable (unary o e)) : IsSign o :=
  h.operators o List.mem_cons_self

theorem Readable.operand (h : Readable (unary o e)) : Readable e :=
  ⟨fun p hp => h.operators p (List.mem_cons_of_mem o hp), h.leaves⟩

theorem Readable.sign_between (h : Readable (binary l o r)) : IsSign o :=
  h.operators o (List.mem_append_right _ List.mem_cons_self)

theorem Readable.left (h : Readable (binary l o r)) : Readable l :=
  ⟨fun p hp => h.operators p (List.mem_append_left _ hp),
    fun value hvalue => h.leaves value (List.mem_append_left _ hvalue)⟩

theorem Readable.right (h : Readable (binary l o r)) : Readable r :=
  ⟨fun p hp => h.operators p (List.mem_append_right _ (List.mem_cons_of_mem o hp)),
    fun value hvalue => h.leaves value (List.mem_append_right _ hvalue)⟩

theorem Readable.leaf {value : Literal} (h : Readable (literal value)) :
    Unbroken value.text.toList :=
  h.leaves value List.mem_cons_self

end Parts

section Signs

variable {p q : Token}

theorem IsSign.unbroken (h : IsSign p) : Unbroken p.lexeme.toList := by
  obtain ⟨s, hs, _, hlexeme⟩ := h
  rw [hlexeme]
  revert hs
  cases s <;> decide

theorem IsSign.kind_eq_iff (hp : IsSign p) (hq : IsSign q) :
    p.kind = q.kind ↔ p.lexeme = q.lexeme := by
  obtain ⟨s, _, hkind, hlexeme⟩ := hp
  obtain ⟨other, _, hkind', hlexeme'⟩ := hq
  rw [hkind, hkind', hlexeme, hlexeme', Kind.symbol.injEq]
  exact ⟨congrArg Symbol.text, Symbol.eq_of_text⟩

theorem unbroken_group : Unbroken "group".toList := by decide

variable {rest behind : List Char}

theorem IsSign.head_inj (hp : IsSign p) (hq : IsSign q)
    (h : '(' :: (p.lexeme.toList ++ ' ' :: rest) = '(' :: (q.lexeme.toList ++ ' ' :: behind)) :
    p.kind = q.kind ∧ rest = behind := by
  obtain ⟨hlexeme, hend⟩ := Expr.head_inj hp.unbroken hq.unbroken h
  exact ⟨(hp.kind_eq_iff hq).mpr (String.toList_inj.mp hlexeme), hend⟩

-- What stands in front of an expression in parentheses is no sign.
theorem IsSign.ne_group (h : IsSign p) (rest behind : List Char) :
    '(' :: (p.lexeme.toList ++ ' ' :: rest) ≠ '(' :: ("group".toList ++ ' ' :: behind) := by
  intro heq
  have hlexeme := String.toList_inj.mp (Expr.head_inj h.unbroken unbroken_group heq).1
  obtain ⟨s, _, _, hs⟩ := h
  rw [hs] at hlexeme
  revert hlexeme
  cases s <;> decide

end Signs

section Decode

variable {e f : Expr} {rest behind : List Char}

-- Only a leaf is printed without parentheses around it.
theorem literal_of_append {x : Literal} (hx : Readable (literal x)) (hrest : Parted rest)
    (h : (literal x).text.toList ++ rest = f.text.toList ++ behind) : ∃ y, f = literal y := by
  cases f with
  | literal y => exact ⟨y, rfl⟩
  | grouping inner =>
    rw [text_grouping_append] at h
    exact absurd h (unbroken_ne_paren hx.leaf hrest)
  | unary operator operand =>
    rw [text_unary_append] at h
    exact absurd h (unbroken_ne_paren hx.leaf hrest)
  | binary left operator right =>
    rw [text_binary_append] at h
    exact absurd h (unbroken_ne_paren hx.leaf hrest)

-- A tree is determined by its text even where the text goes on behind it, as it does behind every
-- part of a tree: where the part ends is known from the text.
theorem sameShape_of_append (he : Readable e) (hf : Readable f) (hrest : Parted rest)
    (hbehind : Parted behind) (h : e.text.toList ++ rest = f.text.toList ++ behind) :
    SameShape e f ∧ rest = behind := by
  induction e generalizing f rest behind with
  | literal x =>
    obtain ⟨y, rfl⟩ := literal_of_append he hrest h
    obtain ⟨htext, hend⟩ := unbroken_inj he.leaf hf.leaf hrest hbehind h
    exact ⟨.literal (String.toList_inj.mp htext), hend⟩
  | grouping inner ih =>
    cases f with
    | literal y => obtain ⟨_, ⟨⟩⟩ := literal_of_append hf hbehind h.symm
    | grouping inner' =>
      rw [text_grouping_append, text_grouping_append] at h
      obtain ⟨_, hinner⟩ := head_inj unbroken_group unbroken_group h
      obtain ⟨hshape, hend⟩ := ih he.inner hf.inner (parted_paren rest) (parted_paren behind) hinner
      exact ⟨.grouping hshape, (List.cons.inj hend).2⟩
    | unary operator operand =>
      rw [text_grouping_append, text_unary_append] at h
      exact absurd h.symm (hf.sign.ne_group _ _)
    | binary left operator right =>
      rw [text_grouping_append, text_binary_append] at h
      exact absurd h.symm (hf.sign_between.ne_group _ _)
  | unary operator operand ih =>
    cases f with
    | literal y => obtain ⟨_, ⟨⟩⟩ := literal_of_append hf hbehind h.symm
    | grouping inner =>
      rw [text_unary_append, text_grouping_append] at h
      exact absurd h (he.sign.ne_group _ _)
    | unary operator' operand' =>
      rw [text_unary_append, text_unary_append] at h
      obtain ⟨hkind, hoperand⟩ := he.sign.head_inj hf.sign h
      obtain ⟨hshape, hend⟩ :=
        ih he.operand hf.operand (parted_paren rest) (parted_paren behind) hoperand
      exact ⟨.unary hkind hshape, (List.cons.inj hend).2⟩
    | binary left operator' right =>
      -- behind the first operand there is a parenthesis in one text and a space in the other
      rw [text_unary_append, text_binary_append] at h
      obtain ⟨_, hoperands⟩ := he.sign.head_inj hf.sign_between h
      obtain ⟨_, ⟨⟩⟩ := ih he.operand hf.left (parted_paren rest) (parted_space _) hoperands
  | binary left operator right ihl ihr =>
    cases f with
    | literal y => obtain ⟨_, ⟨⟩⟩ := literal_of_append hf hbehind h.symm
    | grouping inner =>
      rw [text_binary_append, text_grouping_append] at h
      exact absurd h (he.sign_between.ne_group _ _)
    | unary operator' operand =>
      rw [text_binary_append, text_unary_append] at h
      obtain ⟨_, hoperands⟩ := he.sign_between.head_inj hf.sign h
      obtain ⟨_, ⟨⟩⟩ := ihl he.left hf.operand (parted_space _) (parted_paren behind) hoperands
    | binary left' operator' right' =>
      rw [text_binary_append, text_binary_append] at h
      obtain ⟨hkind, hoperands⟩ := he.sign_between.head_inj hf.sign_between h
      obtain ⟨hleft, hbetween⟩ :=
        ihl he.left hf.left (parted_space _) (parted_space _) hoperands
      obtain ⟨hright, hend⟩ := ihr he.right hf.right (parted_paren rest) (parted_paren behind)
        (List.cons.inj hbetween).2
      exact ⟨.binary hleft hkind hright, (List.cons.inj hend).2⟩

-- What is printed shows the shape of a tree, and shows nothing else of it.
theorem text_eq_iff_of_readable (he : Readable e) (hf : Readable f) :
    e.text = f.text ↔ SameShape e f := by
  constructor
  · intro h
    have hnil : Parted [] := by
      rintro _ ⟨⟩
    exact (sameShape_of_append he hf hnil hnil (by rw [h])).1
  · intro h
    induction h with
    | literal h => exact h
    | grouping h ih =>
      exact congrArg (fun text => parenthesized "group" [text]) (ih he.inner hf.inner)
    | unary hkind h ih =>
      have hlexeme := (he.sign.kind_eq_iff hf.sign).mp hkind
      have hoperand := ih he.operand hf.operand
      exact congrArg₂ (fun head text => parenthesized head [text]) hlexeme hoperand
    | @binary l m r s p q hleft hkind hright ihl ihr =>
      have hlexeme := (he.sign_between.kind_eq_iff hf.sign_between).mp hkind
      have hl := ihl he.left hf.left
      have hr := ihr he.right hf.right
      change parenthesized p.lexeme [l.text, r.text] = parenthesized q.lexeme [m.text, s.text]
      rw [hlexeme, hl, hr]

end Decode

end Expr

end Lox
