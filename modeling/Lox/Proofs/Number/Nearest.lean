import Lox.Proofs.Number.Rounding

namespace Lox.Number

-- How far it is from `q` to the number without its sign.
def distance (q : ℚ) (magnitude : Nat) : ℚ := |q * 2 ^ 1074 - units magnitude| / 2 ^ 1074

theorem distance_eq (q : ℚ) (m : Nat) : distance q m = |q - units m / 2 ^ 1074| := by
  have hunit : (0 : ℚ) < 2 ^ 1074 := by positivity
  have hscaled : q * 2 ^ 1074 - units m = (q - units m / 2 ^ 1074) * 2 ^ 1074 := by
    rw [sub_mul, div_mul_cancel₀ _ hunit.ne']
  rw [distance, hscaled, abs_mul, abs_of_pos hunit, mul_div_cancel_right₀ _ hunit.ne']

theorem RoundsTo.distance_le {q : ℚ} {m : Nat} (h : RoundsTo (q * 2 ^ 1074) m) (k : Nat) :
    distance q m ≤ distance q k :=
  div_le_div_of_nonneg_right (h.nearest k) (by positivity)

theorem abs_eq_of_distance {q : ℚ} {k m : Nat} (h : distance q k = distance q m) :
    |q * 2 ^ 1074 - units k| = |q * 2 ^ 1074 - units m| :=
  (div_left_inj' (by positivity)).mp h

namespace Binary64

-- The number that finite bits stand for.
def value (x : Binary64) : ℚ :=
  (if x.isNegative then -1 else 1) * (x.significand * 2 ^ x.scale) / 2 ^ 1074

-- Correct rounding. No finite number is nearer, and if one is as near, the significand is even. What
-- is not below the middle between the largest finite number and the next power of two is infinite.
structure IsNearest (q : ℚ) (x : Binary64) : Prop where
  isNegative : x.isNegative = false
  isNaN : x.isNaN = false
  isInfinite : x.isInfinite = true ↔ 2 ^ 1024 - 2 ^ 970 ≤ q
  least (y : Binary64) : x.isFinite = true → y.isFinite = true → |q - x.value| ≤ |q - y.value|
  even (y : Binary64) : x.isFinite = true → y.isFinite = true →
    |q - y.value| = |q - x.value| → y.value ≠ x.value → x.significand % 2 = 0

def ofMagnitude (magnitude : Nat) : Binary64 := ⟨UInt64.ofNat magnitude⟩

theorem infiniteMagnitude_eq : infiniteMagnitude = 2047 * 2 ^ 52 := rfl

theorem toNat_bits_ofMagnitude {m : Nat} (h : m < 2 ^ 63) : (ofMagnitude m).bits.toNat = m := by
  rw [ofMagnitude, UInt64.toNat_ofNat']
  omega

theorem magnitude_ofMagnitude {m : Nat} (h : m < 2 ^ 63) : (ofMagnitude m).magnitude = m := by
  rw [magnitude, toNat_bits_ofMagnitude h, Nat.pow_eq, Nat.mod_eq_of_lt h]

theorem isNegative_ofMagnitude {m : Nat} (h : m < 2 ^ 63) : (ofMagnitude m).isNegative = false := by
  rw [isNegative, toNat_bits_ofMagnitude h, Nat.pow_eq, decide_eq_false (Nat.not_le.mpr h)]

theorem eq_ofMagnitude {x : Binary64} (h : x.isNegative = false) : x = ofMagnitude x.magnitude := by
  rw [isNegative, Nat.pow_eq, decide_eq_false_iff_not, Nat.not_le] at h
  rw [magnitude, Nat.pow_eq, Nat.mod_eq_of_lt h, ofMagnitude, UInt64.ofNat_toNat]

theorem nearest_eq (num den : Nat) :
    nearest num den = ofMagnitude (min (rounded num den) infiniteMagnitude) := rfl

theorem significand_mod_two (x : Binary64) : x.significand % 2 = x.magnitude % 2 := by
  have hfield : x.significand =
      if x.magnitude < 2 ^ 52 then x.magnitude else 2 ^ 52 + x.magnitude % 2 ^ 52 := rfl
  rw [hfield]
  split <;> omega

theorem value_eq (x : Binary64) :
    x.value = (if x.isNegative then -1 else 1) * (units x.magnitude / 2 ^ 1074) := by
  rw [value, units_magnitude, mul_div_assoc]
  push_cast
  rfl

theorem value_of_unsigned {x : Binary64} (h : x.isNegative = false) :
    x.value = units x.magnitude / 2 ^ 1074 := by
  rw [value_eq, h, if_neg Bool.false_ne_true, one_mul]

theorem value_le_iff {x y : Binary64} (hx : x.isNegative = false) (hy : y.isNegative = false) :
    x.value ≤ y.value ↔ x.magnitude ≤ y.magnitude := by
  rw [value_of_unsigned hx, value_of_unsigned hy, div_le_div_iff_of_pos_right (by positivity),
    Nat.cast_le, units_strictMono.le_iff_le]

theorem abs_sub_value {x : Binary64} (h : x.isNegative = false) (q : ℚ) :
    |q - x.value| = distance q x.magnitude := by
  rw [distance_eq, value_of_unsigned h]

-- A sign makes no number nearer.
theorem distance_le {q : ℚ} (hq : 0 ≤ q) (y : Binary64) :
    distance q y.magnitude ≤ |q - y.value| := by
  rw [distance_eq, value_eq]
  have hpos : (0 : ℚ) ≤ units y.magnitude / 2 ^ 1074 := by positivity
  generalize (units y.magnitude / 2 ^ 1074 : ℚ) = w at hpos ⊢
  cases y.isNegative with
  | false => simp
  | true =>
    rw [if_pos rfl, neg_one_mul, sub_neg_eq_add, abs_of_nonneg (add_nonneg hq hpos), abs_le]
    constructor <;> linarith

-- The middle between the largest finite number and the next power of two, twice and in units.
theorem two_mul_overflow : (2 * ((2 ^ 1024 - 2 ^ 970) * 2 ^ 1074) : ℚ) =
    units (infiniteMagnitude - 1) + units infiniteMagnitude := by
  have hlast : Splits (infiniteMagnitude - 1) 2045 (2 ^ 53 - 1) := ⟨by decide, by decide, by decide⟩
  have hinfinite : Splits infiniteMagnitude 2046 (2 ^ 52) := ⟨by decide, by decide, by decide⟩
  have hlarge : (2 ^ 1024 * 2 ^ 1074 : ℚ) = 2 ^ 53 * 2 ^ 2045 := by
    rw [← pow_add, ← pow_add]
  have hhalf : (2 * (2 ^ 970 * 2 ^ 1074) : ℚ) = 2 ^ 2045 := by
    rw [← pow_add, ← pow_succ']
  have hdouble : (2 ^ 2046 : ℚ) = 2 * 2 ^ 2045 := pow_succ' 2 2045
  rw [hlast.units_cast, hinfinite.units_cast, sub_mul, hlarge, hdouble, ← hhalf]
  generalize (2 ^ 970 * 2 ^ 1074 : ℚ) = step
  norm_num
  ring

-- The even one of the two neighbours of that middle is the infinite one.
theorem infiniteMagnitude_le_iff {q : ℚ} {m : Nat} (h : RoundsTo (q * 2 ^ 1074) m) :
    infiniteMagnitude ≤ m ↔ 2 ^ 1024 - 2 ^ 970 ≤ q := by
  have hunit : (0 : ℚ) < 2 ^ 1074 := by positivity
  have hoverflow := two_mul_overflow
  have hfields := infiniteMagnitude_eq
  rw [← mul_le_mul_iff_of_pos_right hunit]
  generalize ((2 ^ 1024 - 2 ^ 970) * 2 ^ 1074 : ℚ) = middle at hoverflow ⊢
  generalize q * 2 ^ 1074 = u at h ⊢
  constructor
  · intro hle
    have hbelow := (abs_sub_le_abs_sub_iff (units_cast_lt (by omega))).mp
      (h.nearest (infiniteMagnitude - 1))
    have hunits : (units infiniteMagnitude : ℚ) ≤ units m := by
      exact_mod_cast units_strictMono.monotone hle
    linarith
  · intro hle
    by_contra hlt
    rw [Nat.not_le] at hlt
    have hinfinite := units_cast_lt hlt
    have hnear := (abs_sub_le_abs_sub_iff' hinfinite).mp (h.nearest infiniteMagnitude)
    by_cases hlast : m = infiniteMagnitude - 1
    · rw [← hlast] at hoverflow
      have htie := (abs_sub_le_abs_sub_iff hinfinite).mpr (by linarith)
      have heven := h.even (le_antisymm htie (h.nearest infiniteMagnitude)) (by omega)
      omega
    · have hunits := units_cast_lt (show m < infiniteMagnitude - 1 by omega)
      linarith

-- With a sign there is nothing as near but the zero.
theorem eq_or_even_of_tie {q : ℚ} {x y : Binary64} (hq : 0 ≤ q)
    (h : RoundsTo (q * 2 ^ 1074) x.magnitude) (hx : x.isNegative = false)
    (htie : |q - y.value| = |q - x.value|) : y.value = x.value ∨ x.magnitude % 2 = 0 := by
  by_cases hmagnitude : y.magnitude = x.magnitude
  · left
    have hzero := h.distance_le 0
    have hpos : (0 : ℚ) ≤ units x.magnitude / 2 ^ 1074 := by positivity
    rw [← abs_sub_value hx, ← htie, distance_eq, value_eq, hmagnitude] at hzero
    rw [value_of_unsigned hx, value_eq, hmagnitude]
    generalize (units x.magnitude / 2 ^ 1074 : ℚ) = w at hpos hzero ⊢
    cases hy : y.isNegative with
    | false => simp
    | true =>
      have hnone : (units 0 / 2 ^ 1074 : ℚ) = 0 := by rw [units_zero, Nat.cast_zero, zero_div]
      rw [hy, if_pos rfl, neg_one_mul, sub_neg_eq_add, hnone, sub_zero, abs_of_nonneg hq,
        abs_of_nonneg (add_nonneg hq hpos)] at hzero
      rw [if_pos rfl]
      linarith
  · right
    rw [abs_sub_value hx] at htie
    have hdistance := le_antisymm (htie ▸ distance_le hq y) (h.distance_le _)
    exact h.even (abs_eq_of_distance hdistance) hmagnitude

theorem isNearest_ofMagnitude {q : ℚ} {m : Nat} (hq : 0 ≤ q) (h : RoundsTo (q * 2 ^ 1074) m) :
    IsNearest q (ofMagnitude (min m infiniteMagnitude)) := by
  have hfields := infiniteMagnitude_eq
  have hlt : min m infiniteMagnitude < 2 ^ 63 := by omega
  have hmagnitude := magnitude_ofMagnitude hlt
  have hsign := isNegative_ofMagnitude hlt
  generalize ofMagnitude (min m infiniteMagnitude) = x at hmagnitude hsign
  have hfinite (hx : x.isFinite = true) : x.magnitude = m := by
    rw [isFinite, hmagnitude, decide_eq_true_eq] at hx
    omega
  refine ⟨hsign, ?_, ?_, ?_, ?_⟩
  · rw [isNaN, hmagnitude, decide_eq_false_iff_not]
    omega
  · rw [isInfinite, hmagnitude, decide_eq_true_eq, ← infiniteMagnitude_le_iff h]
    omega
  · intro y hx hy
    rw [← hfinite hx] at h
    rw [abs_sub_value hsign]
    exact (h.distance_le _).trans (distance_le hq y)
  · intro y hx hy htie hne
    rw [← hfinite hx] at h
    rw [significand_mod_two]
    exact (eq_or_even_of_tie hq h hsign htie).resolve_left hne

-- Of the finite numbers only one is nearest, as the even one of two neighbours is.
theorem IsNearest.magnitude_eq {q : ℚ} {m : Nat} {x : Binary64} (hx : IsNearest q x)
    (h : RoundsTo (q * 2 ^ 1074) m) (hfinite : x.isFinite = true) (hm : m < infiniteMagnitude) :
    x.magnitude = m := by
  have hfields := infiniteMagnitude_eq
  have hlt : m < 2 ^ 63 := by omega
  have hsign := isNegative_ofMagnitude hlt
  have hmagnitude := magnitude_ofMagnitude hlt
  generalize ofMagnitude m = y at hsign hmagnitude
  subst hmagnitude
  have hfinite' : y.isFinite = true := decide_eq_true hm
  have hdistance : distance q x.magnitude = distance q y.magnitude := by
    apply le_antisymm _ (h.distance_le _)
    have hleast := hx.least y hfinite hfinite'
    rwa [abs_sub_value hx.isNegative, abs_sub_value hsign] at hleast
  have htie : |q - y.value| = |q - x.value| := by
    rw [abs_sub_value hx.isNegative, abs_sub_value hsign, hdistance]
  by_cases hvalue : y.value = x.value
  · have hle := (value_le_iff hx.isNegative hsign).mp hvalue.ge
    have hge := (value_le_iff hsign hx.isNegative).mp hvalue.le
    omega
  · have heven := hx.even y hfinite hfinite' htie hvalue
    rw [significand_mod_two] at heven
    exact h.eq_of_tie (abs_eq_of_distance hdistance) heven

theorem eq_ofMagnitude_of_isNearest {q : ℚ} {m : Nat} {x : Binary64}
    (h : RoundsTo (q * 2 ^ 1074) m) (hx : IsNearest q x) :
    x = ofMagnitude (min m infiniteMagnitude) := by
  have hnan := hx.isNaN
  have hinfinite := hx.isInfinite
  rw [isNaN, decide_eq_false_iff_not, Nat.not_lt] at hnan
  rw [isInfinite, decide_eq_true_eq, ← infiniteMagnitude_le_iff h] at hinfinite
  have hmagnitude : x.magnitude = min m infiniteMagnitude := by
    by_cases hlarge : infiniteMagnitude ≤ m
    · rw [hinfinite.mpr hlarge, min_eq_right hlarge]
    · have hm := Nat.not_le.mp hlarge
      have hfinite : x.isFinite = true :=
        decide_eq_true (lt_of_le_of_ne hnan (mt hinfinite.mp hlarge))
      rw [hx.magnitude_eq h hfinite hm, min_eq_left hm.le]
  rw [← hmagnitude]
  exact eq_ofMagnitude hx.isNegative

theorem isNearest_iff {q : ℚ} {m : Nat} {x : Binary64} (hq : 0 ≤ q)
    (h : RoundsTo (q * 2 ^ 1074) m) :
    IsNearest q x ↔ x = ofMagnitude (min m infiniteMagnitude) := by
  constructor
  · exact eq_ofMagnitude_of_isNearest h
  · rintro rfl
    exact isNearest_ofMagnitude hq h

end Binary64

namespace Decimal

-- The number that a decimal stands for.
def value (d : Decimal) : ℚ := d.coefficient / 10 ^ d.places

theorem value_nonneg (d : Decimal) : 0 ≤ d.value := by
  unfold value
  positivity

theorem roundsTo_value (d : Decimal) (exponent : Nat) :
    RoundsTo (d.value * 2 ^ exponent)
      (Binary64.rounded (d.coefficient * Nat.pow 2 exponent) (Nat.pow 10 d.places)) := by
  have hunits : d.value * 2 ^ exponent =
      (d.coefficient * Nat.pow 2 exponent : Nat) / (Nat.pow 10 d.places : Nat) := by
    unfold value
    push_cast [Nat.pow_eq]
    ring
  rw [hunits]
  exact Binary64.roundsTo_rounded (Nat.pow_pos (by decide))

theorem toBinary64_eq_of_roundsTo {d : Decimal} {m : Nat} (h : RoundsTo (d.value * 2 ^ 1074) m) :
    d.toBinary64 = .ofMagnitude (min m Binary64.infiniteMagnitude) := by
  -- the exponent is made a variable, so that no step below computes the power
  obtain ⟨exponent, hexponent, hd⟩ : ∃ exponent, exponent = 1074 ∧
      d.toBinary64 = .nearest (d.coefficient * Nat.pow 2 exponent) (Nat.pow 10 d.places) :=
    ⟨1074, rfl, rfl⟩
  rw [← hexponent] at h
  rw [hd, Binary64.nearest_eq, h.unique (d.roundsTo_value exponent)]

theorem isNearest_iff_eq_toBinary64 (d : Decimal) (x : Binary64) :
    x.IsNearest d.value ↔ x = d.toBinary64 := by
  rw [Binary64.isNearest_iff d.value_nonneg (d.roundsTo_value 1074),
    toBinary64_eq_of_roundsTo (d.roundsTo_value 1074)]

end Decimal

end Lox.Number
