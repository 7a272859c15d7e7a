import Lox.Number.Binary64
import Mathlib.Algebra.Order.Ring.Abs
import Mathlib.Data.Rat.Cast.Order
import Mathlib.Tactic.Linarith
import Mathlib.Tactic.Positivity

namespace Lox.Number

-- How many units of the least positive number a magnitude stands for. Here the exponents have no
-- end, so that what is too large for a finite number can be compared with the finite ones.
def units (magnitude : Nat) : Nat :=
  (if magnitude < 2 ^ 52 then magnitude else 2 ^ 52 + magnitude % 2 ^ 52) *
    2 ^ (magnitude / 2 ^ 52 - 1)

theorem units_zero : units 0 = 0 := by simp [units]

theorem units_magnitude (x : Binary64) : units x.magnitude = x.significand * 2 ^ x.scale := rfl

-- A magnitude and the two parts of the number that it stands for. The largest significand of a
-- scale is taken for the least one of the next scale as well, as it comes out of a carry.
structure Splits (magnitude scale significand : Nat) : Prop where
  eq : magnitude = scale * 2 ^ 52 + significand
  le : significand ≤ 2 ^ 53
  normal : 2 ^ 52 ≤ significand ∨ scale = 0

theorem Splits.units_eq {magnitude scale significand : Nat}
    (h : Splits magnitude scale significand) : units magnitude = significand * 2 ^ scale := by
  obtain ⟨rfl, hle, hnormal⟩ := h
  by_cases hlow : significand < 2 ^ 52
  · obtain rfl : scale = 0 := by omega
    have hscale : significand / 2 ^ 52 - 1 = 0 := by omega
    simp only [units, Nat.zero_mul, Nat.zero_add, if_pos hlow, hscale]
  · have hlarge : ¬ scale * 2 ^ 52 + significand < 2 ^ 52 := by omega
    by_cases htop : significand < 2 ^ 53
    · have hscale : (scale * 2 ^ 52 + significand) / 2 ^ 52 - 1 = scale := by omega
      have hdigits : 2 ^ 52 + (scale * 2 ^ 52 + significand) % 2 ^ 52 = significand := by omega
      rw [units, if_neg hlarge, hscale, hdigits]
    · have hscale : (scale * 2 ^ 52 + significand) / 2 ^ 52 - 1 = scale + 1 := by omega
      have hdigits : 2 ^ 52 + (scale * 2 ^ 52 + significand) % 2 ^ 52 = 2 ^ 52 := by omega
      have hcarry : significand = 2 ^ 53 := by omega
      rw [units, if_neg hlarge, hscale, hdigits, hcarry, ← Nat.pow_add, ← Nat.pow_add]
      congr 1
      omega

theorem Splits.units_cast {magnitude scale significand : Nat}
    (h : Splits magnitude scale significand) :
    (units magnitude : ℚ) = significand * 2 ^ scale := by
  exact_mod_cast h.units_eq

theorem exists_splits (magnitude : Nat) :
    ∃ significand < 2 ^ 53, Splits magnitude (magnitude / 2 ^ 52 - 1) significand := by
  by_cases hlow : magnitude < 2 ^ 52
  · exact ⟨magnitude, by omega, by omega, by omega, by omega⟩
  · exact ⟨2 ^ 52 + magnitude % 2 ^ 52, by omega, by omega, by omega, by omega⟩

theorem units_succ (magnitude : Nat) :
    units (magnitude + 1) = units magnitude + 2 ^ (magnitude / 2 ^ 52 - 1) := by
  obtain ⟨significand, hlt, hsplits⟩ := exists_splits magnitude
  have hnext : Splits (magnitude + 1) (magnitude / 2 ^ 52 - 1) (significand + 1) := by
    obtain ⟨heq, hle, hnormal⟩ := hsplits
    exact ⟨by omega, by omega, by omega⟩
  rw [hnext.units_eq, hsplits.units_eq, Nat.succ_mul]

-- The neighbours of a number are one step of its scale away. Only the neighbour below the least
-- significand is nearer, as it has a smaller scale.
theorem Splits.units_above {magnitude scale significand : Nat}
    (h : Splits magnitude scale significand) :
    (units magnitude + 2 ^ scale : Nat) ≤ units (magnitude + 1) := by
  have hscale : scale ≤ magnitude / 2 ^ 52 - 1 := by
    obtain ⟨heq, hle, hnormal⟩ := h
    omega
  rw [units_succ]
  exact Nat.add_le_add_left (Nat.pow_le_pow_right (by decide) hscale) _

theorem Splits.units_below {magnitude scale significand : Nat}
    (h : Splits (magnitude + 1) scale significand) (hleast : 2 ^ 52 < significand ∨ scale = 0) :
    units magnitude + 2 ^ scale = units (magnitude + 1) := by
  have hbelow : Splits magnitude scale (significand - 1) := by
    obtain ⟨heq, hle, hnormal⟩ := h
    exact ⟨by omega, by omega, by omega⟩
  have hpos : significand = significand - 1 + 1 := by
    have := h.eq
    omega
  rw [h.units_eq, hbelow.units_eq, ← Nat.succ_mul, Nat.succ_eq_add_one, ← hpos]

theorem units_strictMono : StrictMono units := by
  apply strictMono_nat_of_lt_succ
  intro magnitude
  rw [units_succ]
  exact Nat.lt_add_of_pos_right (Nat.two_pow_pos _)

-- Of two numbers the one on the far side of the middle is nearer.
theorem abs_sub_le_abs_sub_iff {a b u : ℚ} (h : a < b) : |u - b| ≤ |u - a| ↔ a + b ≤ 2 * u := by
  rw [← sq_le_sq]
  constructor
  · intro hle
    nlinarith
  · intro hle
    nlinarith

theorem abs_sub_le_abs_sub_iff' {a b u : ℚ} (h : a < b) : |u - a| ≤ |u - b| ↔ 2 * u ≤ a + b := by
  rw [← sq_le_sq]
  constructor
  · intro hle
    nlinarith
  · intro hle
    nlinarith

-- The magnitude that is nearest to so many units. Of two at the same distance it is the even one.
structure RoundsTo (u : ℚ) (m : Nat) : Prop where
  nearest (k : Nat) : |u - units m| ≤ |u - units k|
  even {k : Nat} : |u - units k| = |u - units m| → k ≠ m → m % 2 = 0

theorem units_cast_lt {k m : Nat} (h : k < m) : (units k : ℚ) < units m := by
  exact_mod_cast units_strictMono h

-- What lies in the middle between two magnitudes that are no neighbours is nearer to one between
-- them.
theorem abs_sub_lt_of_between {u : ℚ} {k m : Nat} (hlt : k + 1 < m)
    (h : |u - units k| = |u - units m|) : |u - units (k + 1)| < |u - units m| := by
  have hlow := units_cast_lt (Nat.lt_succ_self k)
  have hhigh := units_cast_lt hlt
  have hmiddle : (units k + units m : ℚ) = 2 * u :=
    le_antisymm ((abs_sub_le_abs_sub_iff (hlow.trans hhigh)).mp h.ge)
      ((abs_sub_le_abs_sub_iff' (hlow.trans hhigh)).mp h.le)
  rw [← h, ← sq_lt_sq]
  nlinarith

-- Of the magnitudes that are nearest only one is even, as there is an odd one between any two.
theorem RoundsTo.eq_of_tie {u : ℚ} {k m : Nat} (h : RoundsTo u m)
    (htie : |u - units k| = |u - units m|) (hk : k % 2 = 0) : k = m := by
  by_contra hne
  have hm := h.even htie hne
  rcases lt_or_gt_of_ne hne with hlt | hlt
  · have hcloser := abs_sub_lt_of_between (by omega) htie
    exact absurd (h.nearest (k + 1)) (not_le.mpr hcloser)
  · have hcloser := abs_sub_lt_of_between (by omega) htie.symm
    exact absurd (htie.le.trans (h.nearest (m + 1))) (not_le.mpr hcloser)

theorem RoundsTo.le_of_le {u v : ℚ} {m k : Nat} (hm : RoundsTo u m) (hk : RoundsTo v k)
    (h : u ≤ v) : m ≤ k := by
  by_contra hlt
  rw [Nat.not_le] at hlt
  have hunits := units_cast_lt hlt
  have hbelow := (abs_sub_le_abs_sub_iff hunits).mp (hm.nearest k)
  have habove := (abs_sub_le_abs_sub_iff' hunits).mp (hk.nearest m)
  obtain rfl : u = v := by linarith
  have htie : |u - units k| = |u - units m| := le_antisymm (hk.nearest m) (hm.nearest k)
  exact hlt.ne (hm.eq_of_tie htie (hk.even htie.symm hlt.ne'))

theorem RoundsTo.unique {u : ℚ} {m k : Nat} (hm : RoundsTo u m) (hk : RoundsTo u k) : m = k :=
  Nat.le_antisymm (hm.le_of_le hk le_rfl) (hk.le_of_le hm le_rfl)

theorem roundsTo_zero : RoundsTo 0 0 := by
  refine ⟨fun k => ?_, fun _ _ => rfl⟩
  rw [units_zero, Nat.cast_zero, sub_zero, abs_zero]
  exact abs_nonneg _

-- It is enough to compare a magnitude with its neighbours.
theorem roundsTo_iff {u : ℚ} {m : Nat} :
    RoundsTo u m ↔
      (∀ k, k + 1 = m → (units k + units m : ℚ) ≤ 2 * u ∧
        ((units k + units m : ℚ) = 2 * u → m % 2 = 0)) ∧
      2 * u ≤ units m + units (m + 1) ∧ (2 * u = units m + units (m + 1) → m % 2 = 0) := by
  constructor
  · intro h
    refine ⟨?_, ?_, ?_⟩
    · rintro k rfl
      have hunits := units_cast_lt (Nat.lt_succ_self k)
      refine ⟨(abs_sub_le_abs_sub_iff hunits).mp (h.nearest k), fun htie => ?_⟩
      exact h.even (le_antisymm ((abs_sub_le_abs_sub_iff' hunits).mpr htie.ge) (h.nearest k))
        (Nat.lt_succ_self k).ne
    · exact (abs_sub_le_abs_sub_iff' (units_cast_lt (Nat.lt_succ_self m))).mp (h.nearest (m + 1))
    · intro htie
      have hunits := units_cast_lt (Nat.lt_succ_self m)
      exact h.even (le_antisymm ((abs_sub_le_abs_sub_iff hunits).mpr htie.ge) (h.nearest (m + 1)))
        (Nat.lt_succ_self m).ne'
  · rintro ⟨hlow, hhigh, heven⟩
    -- a magnitude further away is further from `u` than the neighbour on its side
    have hbelow {k : Nat} (hk : k < m) : (units k + units m : ℚ) ≤ 2 * u ∧
        ((units k + units m : ℚ) = 2 * u → m % 2 = 0) := by
      obtain ⟨n, rfl⟩ := Nat.exists_eq_add_one_of_ne_zero (Nat.ne_zero_of_lt hk)
      obtain ⟨hle, htie⟩ := hlow n rfl
      have hunits : (units k : ℚ) ≤ units n := by
        exact_mod_cast units_strictMono.monotone (Nat.le_of_lt_succ hk)
      exact ⟨by linarith, fun h => htie (by linarith)⟩
    have habove {k : Nat} (hk : m < k) : 2 * u ≤ units m + units k ∧
        (2 * u = units m + units k → m % 2 = 0) := by
      have hunits : (units (m + 1) : ℚ) ≤ units k := by
        exact_mod_cast units_strictMono.monotone hk
      exact ⟨by linarith, fun h => heven (by linarith)⟩
    constructor
    · intro k
      rcases lt_trichotomy k m with hk | rfl | hk
      · exact (abs_sub_le_abs_sub_iff (units_cast_lt hk)).mpr (hbelow hk).1
      · exact le_rfl
      · exact (abs_sub_le_abs_sub_iff' (units_cast_lt hk)).mpr (habove hk).1
    · intro k htie hne
      rcases lt_or_gt_of_ne hne with hk | hk
      · refine (hbelow hk).2 (le_antisymm (hbelow hk).1 ?_)
        exact (abs_sub_le_abs_sub_iff' (units_cast_lt hk)).mp htie.le
      · refine (habove hk).2 (le_antisymm (habove hk).1 ?_)
        exact (abs_sub_le_abs_sub_iff (units_cast_lt hk)).mp htie.le

-- A quotient that is rounded to a whole number of steps of a scale. The step below the least
-- significand is smaller, so that the quotient may not lie there.
theorem Splits.roundsTo {magnitude scale significand : Nat} {x : ℚ}
    (h : Splits magnitude scale significand)
    (hdown : (2 * significand : ℚ) ≤ 2 * x + 1) (hup : 2 * x ≤ (2 * significand + 1 : ℚ))
    (heven : (2 * significand : ℚ) = 2 * x + 1 ∨ 2 * x = (2 * significand + 1 : ℚ) →
      significand % 2 = 0)
    (hleast : significand = 2 ^ 52 → scale ≠ 0 → (significand : ℚ) ≤ x) :
    RoundsTo (x * 2 ^ scale) magnitude := by
  have hpow : (0 : ℚ) < 2 ^ scale := by positivity
  have hunits := h.units_cast
  have habove : (units magnitude + 2 ^ scale : ℚ) ≤ units (magnitude + 1) := by
    exact_mod_cast h.units_above
  have hparity : significand % 2 = 0 → magnitude % 2 = 0 := by
    have := h.eq
    omega
  refine roundsTo_iff.mpr ⟨?_, ?_, fun htie => ?_⟩
  · rintro k rfl
    by_cases hstep : significand = 2 ^ 52 ∧ scale ≠ 0
    · have hle := mul_le_mul_of_nonneg_right (hleast hstep.1 hstep.2) hpow.le
      have hlt := units_cast_lt (Nat.lt_succ_self k)
      exact ⟨by linarith, fun htie => by linarith⟩
    · have hbelow : (units k + 2 ^ scale : ℚ) = units (k + 1) := by
        have := h.normal
        exact_mod_cast h.units_below (by omega)
      refine ⟨by nlinarith, fun htie => hparity (heven (.inl ?_))⟩
      apply mul_right_cancel₀ hpow.ne'
      linarith
  · nlinarith
  · refine hparity (heven (.inr (le_antisymm hup ?_)))
    apply le_of_mul_le_mul_right _ hpow
    linarith

end Lox.Number
