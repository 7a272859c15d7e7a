import Lox.Proofs.Number.Shortest

namespace Lox.Number

namespace Binary64

variable {x : Binary64}

theorem splits_magnitude (x : Binary64) : Splits x.magnitude x.scale x.significand := by
  have hscale : x.scale = x.magnitude / 2 ^ 52 - 1 := rfl
  have hsignificand : x.significand =
      if x.magnitude < 2 ^ 52 then x.magnitude else 2 ^ 52 + x.magnitude % 2 ^ 52 := rfl
  by_cases hlow : x.magnitude < 2 ^ 52
  · rw [if_pos hlow] at hsignificand
    exact ⟨by omega, by omega, by omega⟩
  · rw [if_neg hlow] at hsignificand
    exact ⟨by omega, by omega, by omega⟩

theorem exists_roundsTo {q : ℚ} (h : 0 ≤ q) : ∃ m, RoundsTo q m := by
  have hquotient : (q.num.toNat / q.den : ℚ) = q := by
    rw [← Int.cast_natCast, Int.toNat_of_nonneg (Rat.num_nonneg.mpr h), Rat.num_div_den]
  exact ⟨_, hquotient ▸ roundsTo_rounded q.den_pos⟩

theorem isNearest_iff_roundsTo {q : ℚ} (hq : 0 ≤ q) (hsign : x.isNegative = false)
    (hfinite : x.isFinite = true) : x.IsNearest q ↔ RoundsTo (q * 2 ^ 1074) x.magnitude := by
  obtain ⟨m, hm⟩ := exists_roundsTo (mul_nonneg hq (by positivity : (0 : ℚ) ≤ 2 ^ 1074))
  have hfields := infiniteMagnitude_eq
  rw [isFinite, decide_eq_true_eq] at hfinite
  rw [isNearest_iff hq hm]
  constructor
  · intro hx
    have hmagnitude : x.magnitude = min m infiniteMagnitude := by
      conv_lhs => rw [hx]
      exact magnitude_ofMagnitude (by omega)
    obtain rfl : x.magnitude = m := by omega
    exact hm
  · intro hx
    rw [hm.unique hx, min_eq_left hfinite.le]
    exact eq_ofMagnitude hsign

end Binary64

namespace Rounding

variable {x : Binary64}

theorem proper_ofBinary64 (h : 0 < x.magnitude) : (ofBinary64 x).Proper := by
  have hpow (n : Nat) : 0 < Nat.pow 2 n := Nat.two_pow_pos n
  have hsignificand : 0 < x.significand := by
    have heq := (Binary64.splits_magnitude x).eq
    have hnormal := (Binary64.splits_magnitude x).normal
    omega
  refine ⟨hpow _, Nat.mul_pos ?_ (hpow _), Nat.mul_lt_mul_of_pos_right ?_ (hpow _),
    Nat.mul_lt_mul_of_pos_right ?_ (hpow _)⟩
  · split <;> omega
  · split <;> omega
  · omega

-- One of the two powers is always one, so that there are no fractions.
theorem pow_sub_div_pow_sub (n a b : Nat) :
    ((n * Nat.pow 2 (a - b) : Nat) / (Nat.pow 2 (b - a) : Nat) : ℚ) = n * 2 ^ a / 2 ^ b := by
  rw [Nat.pow_eq, Nat.pow_eq]
  push_cast
  rw [div_eq_div_iff (by positivity) (by positivity), mul_assoc, mul_assoc, ← pow_add, ← pow_add]
  congr 2
  omega

theorem pow_add_two (n : Nat) : (2 ^ (n + 2) : ℚ) = 4 * 2 ^ n := by ring

-- The bounds lie in the middle between the number and its neighbours.
theorem high_ofBinary64 (x : Binary64) :
    2 * ((ofBinary64 x).high / (ofBinary64 x).den * 2 ^ 1074 : ℚ) =
      units x.magnitude + units (x.magnitude + 1) := by
  have habove : (units (x.magnitude + 1) : ℚ) = units x.magnitude + 2 ^ x.scale := by
    exact_mod_cast units_succ x.magnitude
  have hunits : (units x.magnitude : ℚ) = x.significand * 2 ^ x.scale := by
    exact_mod_cast units_magnitude x
  have hhigh : ((ofBinary64 x).high / (ofBinary64 x).den : ℚ) =
      (4 * x.significand + 2 : Nat) * 2 ^ x.scale / 2 ^ 1076 := pow_sub_div_pow_sub _ _ _
  rw [hhigh, habove, hunits, (pow_add_two 1074 : (2 ^ 1076 : ℚ) = _)]
  push_cast
  field_simp
  ring

theorem units_add_units_below {k : Nat} (h : k + 1 = x.magnitude) :
    2 * (units k + units x.magnitude) =
      (4 * x.significand - if x.significand = 2 ^ 52 ∧ 0 < x.scale then 1 else 2) *
        2 ^ x.scale := by
  have hsplits := Binary64.splits_magnitude x
  have hunits := units_magnitude x
  rw [← h] at hsplits hunits ⊢
  have hnormal := hsplits.normal
  by_cases hleast : x.significand = 2 ^ 52 ∧ 0 < x.scale
  · obtain ⟨scale, hscale⟩ := Nat.exists_eq_add_one_of_ne_zero hleast.2.ne'
    have hcarry : Splits (k + 1) scale (2 ^ 53) := by
      have heq := hsplits.eq
      rw [hleast.1, hscale] at heq
      exact ⟨heq.trans (by ring), le_rfl, .inl (by norm_num)⟩
    have hbelow := hcarry.units_below (.inl (by norm_num))
    have hdouble : 2 ^ x.scale = 2 * 2 ^ scale := by rw [hscale, Nat.pow_succ']
    rw [if_pos hleast, Nat.sub_mul, Nat.mul_assoc, ← hunits]
    omega
  · have hbelow := hsplits.units_below (by omega)
    rw [if_neg hleast, Nat.sub_mul, Nat.mul_assoc, ← hunits]
    omega

theorem low_ofBinary64 {k : Nat} (h : k + 1 = x.magnitude) :
    2 * ((ofBinary64 x).low / (ofBinary64 x).den * 2 ^ 1074 : ℚ) =
      units k + units x.magnitude := by
  have hlow : ((ofBinary64 x).low / (ofBinary64 x).den : ℚ) =
      (4 * x.significand - if x.significand = 2 ^ 52 ∧ 0 < x.scale then 1 else 2 : Nat) *
        2 ^ x.scale / 2 ^ 1076 := pow_sub_div_pow_sub _ _ _
  have hbelow : (2 * (units k + units x.magnitude) : ℚ) =
      (4 * x.significand - if x.significand = 2 ^ 52 ∧ 0 < x.scale then 1 else 2 : Nat) *
        2 ^ x.scale := by
    exact_mod_cast units_add_units_below h
  rw [hlow, ← hbelow, (pow_add_two 1074 : (2 ^ 1076 : ℚ) = _)]
  field_simp
  ring

theorem contains_ofBinary64_iff {q : ℚ} (hpos : 0 < x.magnitude) :
    (ofBinary64 x).Contains q ↔ RoundsTo (q * 2 ^ 1074) x.magnitude := by
  obtain ⟨k, hk⟩ := Nat.exists_eq_add_one_of_ne_zero hpos.ne'
  have hlow := low_ofBinary64 hk.symm
  have hhigh := high_ofBinary64 x
  have hclosed : (ofBinary64 x).closed = decide (x.magnitude % 2 = 0) := by
    rw [← Binary64.significand_mod_two]
    rfl
  have hunit : (0 : ℚ) < 2 ^ 1074 := by positivity
  rw [roundsTo_iff, ← hhigh, Contains, hclosed]
  generalize ((ofBinary64 x).low / (ofBinary64 x).den : ℚ) = low at hlow ⊢
  generalize ((ofBinary64 x).high / (ofBinary64 x).den : ℚ) = high
  have hbelow (P : Nat → Prop) : (∀ k, k + 1 = x.magnitude → P k) ↔ P k := by
    constructor
    · intro h
      exact h k hk.symm
    · intro h other hother
      obtain rfl : other = k := by omega
      exact h
  rw [hbelow, ← hlow]
  generalize (2 ^ 1074 : ℚ) = unit at hunit ⊢
  have hle {a b : ℚ} : 2 * (a * unit) ≤ 2 * (b * unit) ↔ a ≤ b := by
    rw [mul_le_mul_iff_of_pos_left two_pos, mul_le_mul_iff_of_pos_right hunit]
  have heq {a b : ℚ} : 2 * (a * unit) = 2 * (b * unit) ↔ a = b := by
    rw [mul_right_inj' two_ne_zero, mul_left_inj' hunit.ne']
  rw [hle, hle, heq, heq]
  by_cases heven : x.magnitude % 2 = 0
  · simp [heven]
  · simp [heven, lt_iff_le_and_ne]

-- What is read as the number is what it is nearest to.
theorem contains_ofBinary64_iff_isNearest {q : ℚ} (hq : 0 ≤ q) (hsign : x.isNegative = false)
    (hfinite : x.isFinite = true) (hpos : 0 < x.magnitude) :
    (ofBinary64 x).Contains q ↔ x.IsNearest q :=
  (contains_ofBinary64_iff hpos).trans (Binary64.isNearest_iff_roundsTo hq hsign hfinite).symm

theorem pow_two_dvd_pow_ten {a n : Nat} (h : a ≤ n) : Nat.pow 2 a ∣ 10 ^ n :=
  (Nat.pow_dvd_pow 2 h).trans (pow_dvd_pow_of_dvd (by decide) n)

theorem exact_ofBinary64 (x : Binary64) : (ofBinary64 x).den ∣ 10 ^ (1 + 1076) :=
  pow_two_dvd_pow_ten (by omega)

end Rounding

end Lox.Number
