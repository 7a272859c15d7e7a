import Lox.Proofs.Grammar.Derivation

namespace Lox.Grammar

open Lox.Expr

theorem toNat_ne {r rank : Rank} (h : r ≠ rank) : r.toNat ≠ rank.toNat := by
  intro heq
  apply h
  cases r <;> cases rank <;> first | rfl | cases heq

-- An operator goes on top of a tree whose own operator does not bind more loosely.
theorem attach_eq_binary {e : Expr} {rank : Rank} (operator : Token) (operand : Expr)
    (h : ∀ l o r, e = .binary l o r → ∃ outer, o.data.rank? = some outer ∧ rank.toNat ≤ outer.toNat) :
    e.attach rank operator operand = .binary e operator operand := by
  cases e with
  | binary l o r =>
    obtain ⟨outer, ho, hle⟩ := h l o r rfl
    have hlt : ¬ outer.toNat < rank.toNat := by omega
    simp [attach, ho, hlt]
  | literal | grouping | unary => rfl

-- A tree with an operator that binds more loosely passes the new one on to its right operand.
theorem attach_binary_of_lt {l r : Expr} {o : Token} {outer rank : Rank} (operator : Token)
    (operand : Expr) (ho : o.data.rank? = some outer) (hlt : outer.toNat < rank.toNat) :
    (binary l o r).attach rank operator operand = .binary l o (r.attach rank operator operand) := by
  simp [attach, ho, hlt]

theorem attach_of_derives {rank : Rank} {tokens : List Token} {e : Expr}
    (h : Derives (.chain rank) tokens e) (operator : Token) (operand : Expr) :
    e.attach rank operator operand = .binary e operator operand := by
  apply attach_eq_binary
  rintro l o r rfl
  exact level_le_of_derives h

-- A further operand adds no level of nesting to those that are there.
theorem nesting_attach (e : Expr) (rank : Rank) (operator : Token) (operand : Expr) :
    (e.attach rank operator operand).nesting = max e.nesting operand.nesting := by
  fun_induction attach e rank operator operand with
  | case1 l o r outer ho hlt ih =>
    simp only [nesting_binary, ih]
    omega
  | case2 | case3 | case4 => rfl

-- What the parts of a phrase allow between them may follow the phrase.
theorem derives_attach {p : Phrase} {tokens more : List Token} {e operand : Expr} {rank : Rank}
    {operator : Token} (h : Derives p tokens e) (hp : p.level ≤ rank.toNat)
    (hoperator : operator.data.rank? = some rank) (hoperand : Derives .unary more operand) :
    Derives p (tokens ++ operator :: more) (e.attach rank operator operand) := by
  obtain ⟨s, hs, hk⟩ := rank?_eq_some_iff.mp hoperator
  have hfour : rank.toNat < 4 := by cases rank <;> decide
  -- the new operator stands at the end of a chain of its own rank
  have hsame {r : Rank} {used : List Token} {left : Expr} (hleft : Derives (.chain r) used left)
      (hr : r = rank) :
      Derives (.chain r) (used ++ operator :: more) (left.attach rank operator operand) := by
    subst hr
    rw [attach_of_derives hleft]
    exact .binary hleft hk hs (hoperand.operandOf r)
  induction h with
  | @single r used left h ih =>
    by_cases hr : r = rank
    · exact hsame (.single h) hr
    · apply Derives.single
      apply ih
      have hne := toNat_ne hr
      simp only [Phrase.level] at hp
      rw [Phrase.level_operandOf]
      omega
  | @binary r lefts rights o s' l right hl hko hso hright ihl ihright =>
    by_cases hr : r = rank
    · exact hsame (.binary hl hko hso hright) hr
    · have hne := toNat_ne hr
      have hlt : r.toNat < rank.toNat := by
        simp only [Phrase.level] at hp
        omega
      rw [attach_binary_of_lt operator operand (rank?_eq_some_iff.mpr ⟨s', hso, hko⟩) hlt,
        List.append_assoc]
      apply Derives.binary hl hko hso
      apply ihright
      rw [Phrase.level_operandOf]
      exact hlt
  | unary | primary | literal | grouping =>
    simp only [Phrase.level] at hp
    omega

-- A tree with a hole on its right side that hands every operator on to what fills the hole, as long
-- as the operator binds tightly enough.
def HandsOn (fill : Expr → Expr) (level : Nat) : Prop :=
  ∀ e rank operator operand, level ≤ rank.toNat →
    (fill e).attach rank operator operand = fill (e.attach rank operator operand)

theorem handsOn_id (level : Nat) : HandsOn id level := fun _ _ _ _ _ => rfl

theorem HandsOn.mono {fill : Expr → Expr} {level more : Nat} (h : HandsOn fill level)
    (hle : level ≤ more) : HandsOn fill more :=
  fun e rank operator operand hrank => h e rank operator operand (Nat.le_trans hle hrank)

theorem HandsOn.binary {fill : Expr → Expr} {rank : Rank} {l : Expr} {o : Token}
    (h : HandsOn fill rank.toNat) (ho : o.data.rank? = some rank) :
    HandsOn (fun r => fill (.binary l o r)) (rank.toNat + 1) := by
  intro e inner operator operand hle
  rw [h _ _ _ _ (by omega), attach_binary_of_lt operator operand ho hle]

end Lox.Grammar
