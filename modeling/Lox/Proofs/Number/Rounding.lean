import Lox.Number.Decimal
import Lox.Proofs.Number.Magnitude
import Mathlib.Data.Nat.Cast.Order.Field
import Mathlib.Tactic.FieldSimp
import Mathlib.Tactic.Ring

namespace Lox.Number

-- Half a step on either side, and only an even result at exactly half a step.
theorem roundHalfEven_mul_bounds (num : Nat) {den : Nat} (hden : 0 < den) :
    2 * roundHalfEven num den * den ≤ 2 * num + den ∧
      2 * num ≤ 2 * roundHalfEven num den * den + den ∧
      (2 * roundHalfEven num den * den = 2 * num + den ∨
        2 * num = 2 * roundHalfEven num den * den + den → roundHalfEven num den % 2 = 0) := by
  have hdivide := Nat.div_add_mod num den
  have hmod := Nat.mod_lt num hden
  rw [Nat.mul_comm] at hdivide
  have hdown : 2 * (num / den) * den = 2 * (num / den * den) := Nat.mul_assoc _ _ _
  have hup : 2 * (num / den + 1) * den = 2 * (num / den * den) + 2 * den := by ring
  unfold roundHalfEven
  dsimp only
  split
  · rw [hdown]
    omega
  · split
    · rw [hup]
      omega
    · rcases Nat.mod_two_eq_zero_or_one (num / den) with heven | hodd
      · rw [heven, Nat.add_zero, hdown]
        omega
      · rw [hodd, hup]
        omega

theorem roundHalfEven_bounds (num : Nat) {den : Nat} (hden : 0 < den) :
    (2 * roundHalfEven num den : ℚ) ≤ 2 * (num / den) + 1 ∧
      2 * (num / den) ≤ (2 * roundHalfEven num den + 1 : ℚ) ∧
      ((2 * roundHalfEven num den : ℚ) = 2 * (num / den) + 1 ∨
        2 * (num / den) = (2 * roundHalfEven num den + 1 : ℚ) → roundHalfEven num den % 2 = 0) := by
  obtain ⟨hdown, hup, heven⟩ := roundHalfEven_mul_bounds num hden
  generalize roundHalfEven num den = r at hdown hup heven ⊢
  have hdenq : (0 : ℚ) < den := by exact_mod_cast hden
  have hnum : (num : ℚ) = num / den * den := by field_simp
  refine ⟨?_, ?_, fun htie => heven ?_⟩
  · have h : (2 * r * den : ℚ) ≤ 2 * num + den := by exact_mod_cast hdown
    apply le_of_mul_le_mul_right _ hdenq
    linarith
  · have h : (2 * num : ℚ) ≤ 2 * r * den + den := by exact_mod_cast hup
    apply le_of_mul_le_mul_right _ hdenq
    linarith
  · rcases htie with htie | htie
    · left
      have h : (2 * r * den : ℚ) = 2 * num + den := by
        rw [htie, hnum]
        field_simp
      exact_mod_cast h
    · right
      have h : (2 * num : ℚ) = 2 * r * den + den := by
        rw [hnum, ← mul_assoc, htie]
        ring
      exact_mod_cast h

theorem roundHalfEven_between (num den : Nat) :
    num / den ≤ roundHalfEven num den ∧ roundHalfEven num den ≤ num / den + 1 := by
  unfold roundHalfEven
  dsimp only
  split
  · omega
  · split <;> omega

namespace Binary64

-- The scale that rounding starts from keeps 53 binary digits of the quotient, or all of them.
theorem log2_bounds {n drop : Nat} (hdrop : drop = Nat.log2 n - 52) :
    n < 2 ^ 53 * 2 ^ drop ∧ (2 ^ 52 * 2 ^ drop ≤ n ∨ drop = 0) := by
  have hlt : n < 2 ^ (n.log2 + 1) := Nat.lt_log2_self
  constructor
  · rw [← Nat.pow_add]
    exact lt_of_lt_of_le hlt (Nat.pow_le_pow_right (by decide) (by omega))
  · by_cases hzero : drop = 0
    · exact .inr hzero
    · left
      have hn : n ≠ 0 := by
        rintro rfl
        simp at hdrop
        omega
      rw [← Nat.pow_add, show 52 + drop = n.log2 by omega]
      exact Nat.log2_self_le hn

theorem splits_nearest {num den drop : Nat} (hdrop : drop = Nat.log2 (num / den) - 52) :
    Splits (drop * 2 ^ 52 + roundHalfEven num (den * 2 ^ drop)) drop
      (roundHalfEven num (den * 2 ^ drop)) := by
  obtain ⟨hlt, hle⟩ := log2_bounds hdrop
  obtain ⟨hdown, hup⟩ := roundHalfEven_between num (den * 2 ^ drop)
  rw [← Nat.div_div_eq_div_mul] at hdown hup
  have hquotient : num / den / 2 ^ drop < 2 ^ 53 := by
    rw [Nat.div_lt_iff_lt_mul (Nat.two_pow_pos _)]
    exact hlt
  refine ⟨rfl, by omega, hle.imp_left fun hle => ?_⟩
  have hquotient' : 2 ^ 52 ≤ num / den / 2 ^ drop := by
    rw [Nat.le_div_iff_mul_le (Nat.two_pow_pos _)]
    exact hle
  omega

-- The magnitude that a quotient is rounded to, before it is cut off at the infinite one.
def rounded (num den : Nat) : Nat :=
  let drop := Nat.log2 (num / den) - 52
  drop * 2 ^ 52 + roundHalfEven num (den * 2 ^ drop)

theorem roundsTo_rounded {num den : Nat} (hden : 0 < den) :
    RoundsTo (num / den) (rounded num den) := by
  unfold rounded
  dsimp only
  generalize hdrop : Nat.log2 (num / den) - 52 = drop
  have hsplits := splits_nearest hdrop.symm
  have hlarge := (log2_bounds hdrop.symm).2
  obtain ⟨hdown, hup, heven⟩ :=
    roundHalfEven_bounds num (Nat.mul_pos hden (Nat.two_pow_pos drop))
  generalize roundHalfEven num (den * 2 ^ drop) = r at hsplits hdown hup heven
  have hpow : (0 : ℚ) < 2 ^ drop := by positivity
  have hscaled : (num / den : ℚ) = num / (den * 2 ^ drop : Nat) * 2 ^ drop := by
    push_cast
    field_simp
  have hfloor : ((num / den : Nat) : ℚ) ≤ num / den := Nat.cast_div_le
  rw [hscaled] at hfloor ⊢
  apply hsplits.roundsTo hdown hup heven
  -- the quotient keeps at least 53 digits, so it is no smaller than the least significand
  rintro rfl hzero
  have hle : (2 ^ 52 * 2 ^ drop : ℚ) ≤ (num / den : Nat) := by
    exact_mod_cast hlarge.resolve_right hzero
  apply le_of_mul_le_mul_right _ hpow
  push_cast at hfloor ⊢
  exact hle.trans hfloor

end Binary64

end Lox.Number
