import Lox.Number.Shortest
import Lox.Proofs.Number.Nearest
import Mathlib.Algebra.Order.Field.Power
import Mathlib.Data.Nat.Cast.Field

namespace Lox.Number

namespace Rounding

variable {r : Rounding}

-- The rational numbers that are read as the number.
def Contains (r : Rounding) (q : ℚ) : Prop :=
  if r.closed then (r.low / r.den : ℚ) ≤ q ∧ q ≤ r.high / r.den
  else (r.low / r.den : ℚ) < q ∧ q < r.high / r.den

-- The number lies between its bounds and above zero.
structure Proper (r : Rounding) : Prop where
  den_pos : 0 < r.den
  low_pos : 0 < r.low
  low_lt : r.low < r.value
  lt_high : r.value < r.high

theorem Contains.of_between {a b q : ℚ} (ha : r.Contains a) (hb : r.Contains b) (haq : a ≤ q)
    (hqb : q ≤ b) : r.Contains q := by
  unfold Contains at ha hb ⊢
  by_cases hclosed : r.closed = true
  · rw [if_pos hclosed] at ha hb ⊢
    exact ⟨ha.1.trans haq, hqb.trans hb.2⟩
  · rw [if_neg hclosed] at ha hb ⊢
    exact ⟨ha.1.trans_le haq, hqb.trans_lt hb.2⟩

theorem Contains.bounds {q : ℚ} (h : r.Contains q) :
    (r.low / r.den : ℚ) ≤ q ∧ q ≤ r.high / r.den := by
  unfold Contains at h
  split at h
  · exact h
  · exact ⟨h.1.le, h.2.le⟩

theorem Proper.contains_value (h : r.Proper) : r.Contains (r.value / r.den) := by
  have hden : (0 : ℚ) < r.den := by exact_mod_cast h.den_pos
  have hlow : (r.low / r.den : ℚ) < r.value / r.den :=
    div_lt_div_of_pos_right (by exact_mod_cast h.low_lt) hden
  have hhigh : (r.value / r.den : ℚ) < r.high / r.den :=
    div_lt_div_of_pos_right (by exact_mod_cast h.lt_high) hden
  unfold Contains
  split
  · exact ⟨hlow.le, hhigh.le⟩
  · exact ⟨hlow, hhigh⟩

theorem Proper.not_contains_zero (h : r.Proper) : ¬ r.Contains 0 := by
  intro hzero
  have hden : (0 : ℚ) < r.den := by exact_mod_cast h.den_pos
  have hlow : (0 : ℚ) < r.low := by exact_mod_cast h.low_pos
  exact absurd hzero.bounds.1 (not_le.mpr (div_pos hlow hden))

theorem holds_iff (hden : 0 < r.den) {factor : Nat} (hfactor : 0 < factor) (num : Nat) :
    r.holds factor num = true ↔ r.Contains (num / (factor * r.den)) := by
  have hdenq : (0 : ℚ) < r.den := by exact_mod_cast hden
  have hfactorq : (0 : ℚ) < factor := by exact_mod_cast hfactor
  have hle (a b : Nat) : (a / r.den : ℚ) ≤ b / (factor * r.den) ↔ a * factor ≤ b := by
    rw [div_le_div_iff₀ hdenq (by positivity), ← mul_assoc, mul_le_mul_iff_of_pos_right hdenq]
    exact_mod_cast Iff.rfl
  have hge (a b : Nat) : (b / (factor * r.den) : ℚ) ≤ a / r.den ↔ b ≤ a * factor := by
    rw [div_le_div_iff₀ (by positivity) hdenq, ← mul_assoc, mul_le_mul_iff_of_pos_right hdenq]
    exact_mod_cast Iff.rfl
  unfold holds Contains
  by_cases hclosed : r.closed = true
  · rw [if_pos hclosed, if_pos hclosed, hle, hge, decide_eq_true_eq]
  · rw [if_neg hclosed, if_neg hclosed, lt_iff_lt_of_le_iff_le (hge _ _),
      lt_iff_lt_of_le_iff_le (hle _ _), decide_eq_true_eq]

-- The quotient `step / factor` over the denominator of the bounds, whose multiples are tried.
structure Grid (r : Rounding) (step factor : Nat) (grid : ℚ) : Prop where
  factor_pos : 0 < factor
  step_pos : 0 < step
  eq : (step : ℚ) = grid * (factor * r.den)

section Grid

variable {step factor : Nat} {grid : ℚ}

theorem Grid.holds_iff (h : r.Grid step factor grid) (hden : 0 < r.den) (k : Nat) :
    r.holds factor (k * step) = true ↔ r.Contains (k * grid) := by
  have hdenq : (0 : ℚ) < r.den := by exact_mod_cast hden
  have hfactorq : (0 : ℚ) < factor := by exact_mod_cast h.factor_pos
  have hpoint : ((k * step : Nat) / (factor * r.den) : ℚ) = k * grid := by
    rw [div_eq_iff (by positivity), Nat.cast_mul, h.eq, mul_assoc]
  rw [Rounding.holds_iff hden h.factor_pos, hpoint]

theorem Grid.mul_le_iff (h : r.Grid step factor grid) (hden : 0 < r.den) (k : Nat) :
    k * grid ≤ r.value / r.den ↔ k * step ≤ r.value * factor := by
  have hdenq : (0 : ℚ) < r.den := by exact_mod_cast hden
  have hfactorq : (0 : ℚ) < factor := by exact_mod_cast h.factor_pos
  have hpoint : (k * step : ℚ) = k * grid * r.den * factor := by
    rw [h.eq]
    ring
  rw [le_div_iff₀ hdenq, ← mul_le_mul_iff_of_pos_right hfactorq, ← hpoint]
  exact_mod_cast Iff.rfl

theorem Grid.nonneg (h : r.Grid step factor grid) (hden : 0 < r.den) : 0 ≤ grid := by
  have hfactor := h.factor_pos
  have hall : 0 ≤ grid * (factor * r.den) := h.eq ▸ Nat.cast_nonneg step
  exact nonneg_of_mul_nonneg_left hall (by positivity)

theorem holds_of_pick? {c : Nat} (h : r.pick? step factor = some c) :
    r.holds factor (c * step) = true := by
  simp only [pick?] at h
  split at h
  · split at h <;> cases h <;> assumption
  · cases h
    assumption
  · cases h
    assumption
  · cases h

theorem not_holds_of_pick? (h : r.pick? step factor = none) :
    r.holds factor (r.value * factor / step * step) = false ∧
      r.holds factor ((r.value * factor / step + 1) * step) = false := by
  simp only [pick?] at h
  split at h
  · split at h <;> cases h
  · cases h
  · cases h
  · exact ⟨by assumption, by assumption⟩

theorem contains_of_pick? (hgrid : r.Grid step factor grid) (hden : 0 < r.den) {c : Nat}
    (h : r.pick? step factor = some c) : r.Contains (c * grid) :=
  (hgrid.holds_iff hden c).mp (holds_of_pick? h)

-- The multiples on both sides of the number are nearest to it, so that there is none if these are
-- too far away.
theorem not_contains_of_pick? (hgrid : r.Grid step factor grid) (hproper : r.Proper)
    (h : r.pick? step factor = none) (k : Nat) : ¬ r.Contains (k * grid) := by
  intro hk
  have hden := hproper.den_pos
  have hvalue := hproper.contains_value
  have hpos := hgrid.nonneg hden
  obtain ⟨hbelow, habove⟩ := not_holds_of_pick? h
  have hle := Nat.div_mul_le_self (r.value * factor) step
  have hlt := Nat.lt_mul_div_succ (r.value * factor) hgrid.step_pos
  rw [← Bool.not_eq_true, hgrid.holds_iff hden] at hbelow habove
  rw [Nat.mul_comm step, ← Nat.not_le, ← hgrid.mul_le_iff hden, not_le] at hlt
  rw [← hgrid.mul_le_iff hden] at hle
  generalize r.value * factor / step = below at hbelow habove hle hlt
  rcases Nat.lt_or_ge below k with hk' | hk'
  · refine habove (hvalue.of_between hk hlt.le (mul_le_mul_of_nonneg_right ?_ hpos))
    exact_mod_cast hk'
  · refine hbelow (hk.of_between hvalue (mul_le_mul_of_nonneg_right ?_ hpos) hle)
    exact_mod_cast hk'

end Grid

-- Powers of ten, from one upwards and from a tenth downwards.
theorem grid_coarser (h : r.Proper) (exponent : Nat) :
    r.Grid (r.den * Nat.pow 10 exponent) 1 (10 ^ (exponent : ℤ)) := by
  refine ⟨Nat.one_pos, Nat.mul_pos h.den_pos (Nat.pow_pos (by decide)), ?_⟩
  rw [zpow_natCast, Nat.pow_eq]
  push_cast
  ring

theorem grid_finer (h : r.Proper) (places : Nat) :
    r.Grid r.den (Nat.pow 10 places) (10 ^ (-(places : ℤ))) := by
  refine ⟨Nat.pow_pos (by decide), h.den_pos, ?_⟩
  rw [zpow_neg, zpow_natCast, Nat.pow_eq]
  push_cast
  field_simp

-- No multiple of a larger power of ten is read as the number.
def MissesAbove (r : Rounding) (exponent : ℤ) : Prop :=
  ∀ larger, exponent < larger → ∀ k : ℕ, ¬ r.Contains (k * 10 ^ larger)

-- A multiple of a power of ten that is read as the number, where the power is as large as can be.
structure Coarsest (r : Rounding) (c : Nat) (exponent : ℤ) : Prop where
  contains : r.Contains (c * 10 ^ exponent)
  missesAbove : r.MissesAbove exponent

section Search

variable {step factor : Nat} {exponent : ℤ}

theorem Coarsest.of_pick? (hgrid : r.Grid step factor (10 ^ exponent)) (hproper : r.Proper)
    (hmisses : r.MissesAbove exponent) {c : Nat} (h : r.pick? step factor = some c) :
    r.Coarsest c exponent :=
  ⟨contains_of_pick? hgrid hproper.den_pos h, hmisses⟩

theorem MissesAbove.of_pick? (hmisses : r.MissesAbove exponent)
    (hgrid : r.Grid step factor (10 ^ exponent)) (hproper : r.Proper)
    (h : r.pick? step factor = none) : r.MissesAbove (exponent - 1) := by
  intro larger hlarger
  rcases (Int.sub_one_lt_iff.mp hlarger).eq_or_lt with rfl | hlt
  · exact not_contains_of_pick? hgrid hproper h
  · exact hmisses larger hlt

end Search

-- A power of ten above the upper bound is too large, and so are its multiples.
theorem Proper.missesAbove_length (h : r.Proper) :
    r.MissesAbove (Nat.toDigits 10 (r.high / r.den)).length := by
  intro larger hlarger k hk
  have hdenq : (0 : ℚ) < r.den := by exact_mod_cast h.den_pos
  generalize hlength : (Nat.toDigits 10 (r.high / r.den)).length = length at hlarger
  have hfew : r.high / r.den < 10 ^ length :=
    (Nat.length_toDigits_le_iff (by decide) (hlength ▸ Nat.length_toDigits_pos)).mp hlength.le
  have hhigh : (r.high / r.den : ℚ) < 10 ^ length := by
    rw [div_lt_iff₀ hdenq]
    exact_mod_cast (Nat.div_lt_iff_lt_mul h.den_pos).mp hfew
  rcases Nat.eq_zero_or_pos k with rfl | hpos
  · rw [Nat.cast_zero, zero_mul] at hk
    exact h.not_contains_zero hk
  · have hone : (1 : ℚ) ≤ k := by exact_mod_cast hpos
    have hgrid : (10 ^ length : ℚ) ≤ 10 ^ larger := by
      rw [← zpow_natCast]
      exact zpow_le_zpow_right₀ (by norm_num) hlarger.le
    have hpoint : (10 ^ larger : ℚ) ≤ k * 10 ^ larger :=
      le_mul_of_one_le_left (zpow_nonneg (by norm_num) _) hone
    linarith [hk.bounds.2]

-- The first exponent from above that has a multiple is the largest one.
theorem coarser_spec (h : r.Proper) {exponent : Nat} (hmisses : r.MissesAbove exponent) :
    match r.coarser exponent with
    | some d => ∃ c zeros : Nat, d = ⟨c * 10 ^ zeros, 0⟩ ∧ r.Coarsest c zeros
    | none => r.MissesAbove (-1) := by
  induction exponent with
  | zero =>
    have hgrid := grid_coarser h 0
    rw [Nat.pow_eq, Nat.pow_zero, Nat.mul_one] at hgrid
    rw [coarser]
    cases hpick : r.pick? r.den 1 with
    | some c => exact ⟨c, 0, by rw [Nat.pow_zero, Nat.mul_one], .of_pick? hgrid h hmisses hpick⟩
    | none => exact hmisses.of_pick? hgrid h hpick
  | succ exponent ih =>
    have hgrid := grid_coarser h (exponent + 1)
    rw [coarser]
    cases hpick : r.pick? (r.den * Nat.pow 10 (exponent + 1)) 1 with
    | some c => exact ⟨c, exponent + 1, rfl, .of_pick? hgrid h hmisses hpick⟩
    | none =>
      have hnext := hmisses.of_pick? hgrid h hpick
      rw [Nat.cast_succ, add_sub_cancel_right] at hnext
      exact ih hnext

theorem finer_coarsest (h : r.Proper) {places fuel : Nat}
    (hexact : r.den ∣ r.value * 10 ^ (places + fuel)) (hmisses : r.MissesAbove (-places)) :
    r.Coarsest (r.finer places fuel).coefficient (-(r.finer places fuel).places) := by
  induction fuel generalizing places with
  | zero =>
    have hden : (r.den : ℚ) ≠ 0 := by exact_mod_cast h.den_pos.ne'
    have hvalue : ((r.value * 10 ^ places / r.den : Nat) : ℚ) * 10 ^ (-(places : ℤ)) =
        r.value / r.den := by
      rw [Nat.add_zero] at hexact
      rw [Nat.cast_div hexact hden, zpow_neg, zpow_natCast]
      push_cast
      field_simp
    refine ⟨?_, hmisses⟩
    rw [finer, Nat.pow_eq, hvalue]
    exact h.contains_value
  | succ fuel ih =>
    have hgrid := grid_finer h places
    rw [finer]
    cases hpick : r.pick? r.den (Nat.pow 10 places) with
    | some c => exact Coarsest.of_pick? hgrid h hmisses hpick
    | none =>
      have hnext := hmisses.of_pick? hgrid h hpick
      refine ih ?_ ?_
      · rwa [Nat.add_assoc, Nat.add_comm 1]
      · rwa [Nat.cast_succ, neg_add]

-- Nothing that is read as the number has fewer digits. Otherwise a power of ten would lie between,
-- and it is a multiple of a larger power of ten.
theorem Coarsest.lt_pow {c other n : Nat} {exponent e : ℤ} (h : r.Coarsest c exponent)
    (hother : r.Contains (other * 10 ^ e)) (hn : 0 < n) (hlt : other < 10 ^ n) : c < 10 ^ n := by
  by_contra hge
  have hgrid : (0 : ℚ) < 10 ^ exponent := zpow_pos (by norm_num) exponent
  have he : e ≤ exponent := by
    by_contra hlarger
    exact h.missesAbove e (not_le.mp hlarger) other hother
  have hbelow : (other * 10 ^ e : ℚ) ≤ 10 ^ n * 10 ^ exponent := by
    have hdigits : (other : ℚ) ≤ 10 ^ n := by exact_mod_cast hlt.le
    have hpow : (10 ^ e : ℚ) ≤ 10 ^ exponent := zpow_le_zpow_right₀ (by norm_num) he
    exact mul_le_mul hdigits hpow (zpow_nonneg (by norm_num) e) (by positivity)
  have habove : (10 ^ n * 10 ^ exponent : ℚ) ≤ c * 10 ^ exponent := by
    have hdigits : (10 ^ n : ℚ) ≤ c := by exact_mod_cast Nat.not_lt.mp hge
    exact mul_le_mul_of_nonneg_right hdigits hgrid.le
  have hbetween := hother.of_between h.contains hbelow habove
  have hlarger : exponent < n + exponent := by omega
  refine h.missesAbove _ hlarger 1 ?_
  rwa [Nat.cast_one, one_mul, zpow_add₀ (by norm_num), zpow_natCast]

theorem shortest_coarsest (h : r.Proper) (hexact : r.den ∣ 10 ^ (1 + 1076)) :
    ∃ c zeros : Nat, r.shortest.coefficient = c * 10 ^ zeros ∧
      (r.shortest.places ≠ 0 → zeros = 0) ∧ r.Coarsest c (zeros - r.shortest.places) := by
  have hcoarser := coarser_spec h h.missesAbove_length
  rw [shortest]
  cases hfound : r.coarser (Nat.toDigits 10 (r.high / r.den)).length with
  | some d =>
    rw [hfound] at hcoarser
    obtain ⟨c, zeros, rfl, hcoarsest⟩ := hcoarser
    refine ⟨c, zeros, rfl, fun hplaces => absurd rfl hplaces, ?_⟩
    rwa [Nat.cast_zero, sub_zero]
  | none =>
    rw [hfound] at hcoarser
    have hfiner := finer_coarsest h (hexact.mul_left r.value) hcoarser
    refine ⟨_, 0, (Nat.mul_one _).symm, fun _ => rfl, ?_⟩
    rwa [Nat.cast_zero, zero_sub]

end Rounding

end Lox.Number
