import Lox.Proofs.Number.Interval
import Lox.Proofs.Number.Numeral
import Mathlib.Data.List.DropRight

namespace Lox

open Lox.Guarded Lox.Number

namespace Number

namespace Decimal

section Digits

variable {width n : Nat}

theorem isDigit_of_mem_toDigits {c : Char} (h : c ∈ Nat.toDigits 10 n) : c.isDigit = true :=
  Nat.isDigit_of_mem_toDigits (by decide) (by decide) h

theorem length_paddedDigits (hwidth : 0 < width) (h : n < 10 ^ width) :
    (paddedDigits width n).length = width := by
  have hle : (Nat.toDigits 10 n).length ≤ width :=
    (Nat.length_toDigits_le_iff (by decide) hwidth).mpr h
  rw [paddedDigits, List.length_append, List.length_replicate, Nat.sub_add_cancel hle]

theorem ofDigitChars_paddedDigits (width n : Nat) :
    Nat.ofDigitChars 10 (paddedDigits width n) 0 = n := by
  rw [paddedDigits, Nat.ofDigitChars_append, Nat.ofDigitChars_replicate_zero, Nat.mul_zero,
    Nat.ofDigitChars_ten_toDigits]

theorem isDigit_of_mem_paddedDigits {c : Char} (h : c ∈ paddedDigits width n) :
    c.isDigit = true := by
  rcases List.mem_append.mp h with hzero | hdigit
  · rw [List.eq_of_mem_replicate hzero]
    decide
  · exact isDigit_of_mem_toDigits hdigit

end Digits

-- A decimal is written with the digits that it is made of.
theorem writes_text (d : Decimal) : Writes d.text d := by
  obtain ⟨coefficient, places⟩ := d
  have hdigits (n : Nat) : ∀ c ∈ Nat.toDigits 10 n, c.isDigit = true := fun _ =>
    isDigit_of_mem_toDigits
  unfold text
  dsimp only
  by_cases hplaces : places = 0
  · have hwhole : ofDigits (Nat.toDigits 10 coefficient) [] = ⟨coefficient, 0⟩ := by
      rw [ofDigits, List.append_nil, Nat.ofDigitChars_ten_toDigits, List.length_nil]
    rw [if_pos hplaces, hplaces, Nat.pow_eq, Nat.pow_zero, Nat.div_one, ← hwhole]
    exact .whole Nat.toDigits_ne_nil (hdigits coefficient)
  · have hpos : 0 < Nat.pow 10 places := Nat.pow_pos (by decide)
    have hlength : (paddedDigits places (coefficient % Nat.pow 10 places)).length = places :=
      length_paddedDigits (Nat.pos_of_ne_zero hplaces) (Nat.mod_lt coefficient hpos)
    have hsome : paddedDigits places (coefficient % Nat.pow 10 places) ≠ [] := by
      rw [← List.length_pos_iff, hlength]
      exact Nat.pos_of_ne_zero hplaces
    have hfraction : ofDigits (Nat.toDigits 10 (coefficient / Nat.pow 10 places))
        (paddedDigits places (coefficient % Nat.pow 10 places)) = ⟨coefficient, places⟩ := by
      rw [ofDigits, Nat.ofDigitChars_append, Nat.ofDigitChars_ten_toDigits,
        Nat.ofDigitChars_eq_ofDigitChars_zero, hlength, ofDigitChars_paddedDigits, ← Nat.pow_eq,
        Nat.div_add_mod]
    have hwrites := Writes.fraction Nat.toDigits_ne_nil
      (hdigits (coefficient / Nat.pow 10 places)) hsome fun _ => isDigit_of_mem_paddedDigits
    rw [hfraction] at hwrites
    rw [if_neg hplaces]
    exact hwrites

end Decimal

-- The digits of a numeral without the zeros in front of the others. Without a point the zeros behind
-- the others do not count either, as they only give the others their places.
def significant (text : List Char) : List Char :=
  let digits := if '.' ∈ text then text.filter (· ≠ '.') else text.rdropWhile (· = '0')
  digits.dropWhile (· = '0')

example : significant "0.0120".toList = ['1', '2', '0'] ∧ significant "0120".toList = ['1', '2'] := by
  decide +kernel

section Significant

variable {digits : List Char}

theorem digitValue_bounds {c : Char} (h : c.isDigit = true) (hne : c ≠ '0') :
    0 < c.toNat - '0'.toNat ∧ c.toNat - '0'.toNat < 10 := by
  obtain ⟨hlow, hhigh⟩ := Char.isDigit_iff_toNat.mp h
  have hzero : c.toNat ≠ '0'.toNat := fun heq => hne (Char.toNat_inj.mp heq)
  have hnine : '9'.toNat = '0'.toNat + 9 := rfl
  omega

-- Behind the zeros in front, every digit makes the number ten times as large.
theorem length_dropWhile_le (hdigits : ∀ d ∈ digits, d.isDigit = true) {n : Nat}
    (h : Nat.ofDigitChars 10 digits 0 < 10 ^ n) : (digits.dropWhile (· = '0')).length ≤ n := by
  induction digits with
  | nil => exact Nat.zero_le n
  | cons c digits ih =>
    rw [Nat.ofDigitChars_cons, Nat.mul_zero, Nat.zero_add] at h
    by_cases hc : c = '0'
    · rw [List.dropWhile_cons_of_pos (by simpa using hc)]
      rw [hc, Nat.sub_self] at h
      exact ih (fun d hd => hdigits d (List.mem_cons_of_mem c hd)) h
    · have hpos := (digitValue_bounds (hdigits c List.mem_cons_self) hc).1
      rw [Nat.ofDigitChars_eq_ofDigitChars_zero] at h
      have hle := Nat.le_mul_of_pos_right (10 ^ digits.length) hpos
      rw [List.dropWhile_cons_of_neg (by simpa using hc), List.length_cons]
      have hlt : 10 ^ digits.length < 10 ^ n := by omega
      exact (Nat.pow_lt_pow_iff_right (by decide)).mp hlt

-- The zeros behind are at least as many as the powers of ten that can be taken out.
theorem ofDigitChars_rdropWhile_le (hdigits : ∀ d ∈ digits, d.isDigit = true) {c zeros : Nat}
    (h : Nat.ofDigitChars 10 digits 0 = c * 10 ^ zeros) :
    Nat.ofDigitChars 10 (digits.rdropWhile (· = '0')) 0 ≤ c := by
  induction digits using List.reverseRecOn generalizing c zeros with
  | nil => exact Nat.zero_le c
  | append_singleton digits d ih =>
    have hfront : ∀ d ∈ digits, d.isDigit = true := fun d hd =>
      hdigits d (List.mem_append_left _ hd)
    have hlast : d.isDigit = true := hdigits d (List.mem_append_right _ List.mem_cons_self)
    have hvalue : Nat.ofDigitChars 10 (digits ++ [d]) 0 =
        10 * Nat.ofDigitChars 10 digits 0 + (d.toNat - '0'.toNat) := by
      rw [Nat.ofDigitChars_append, Nat.ofDigitChars_cons, Nat.ofDigitChars_nil]
    by_cases hd : d = '0'
    · rw [List.rdropWhile_concat_pos _ _ _ (by simpa using hd)]
      rw [hvalue, hd, Nat.sub_self, Nat.add_zero] at h
      cases zeros with
      | zero =>
        have hself : Nat.ofDigitChars 10 digits 0 = Nat.ofDigitChars 10 digits 0 * 10 ^ 0 := by
          rw [Nat.pow_zero, Nat.mul_one]
        have hle := ih hfront hself
        omega
      | succ zeros =>
        have hshift : Nat.ofDigitChars 10 digits 0 = c * 10 ^ zeros := by
          rw [Nat.pow_succ, ← Nat.mul_assoc] at h
          omega
        exact ih hfront hshift
    · rw [List.rdropWhile_concat_neg _ _ _ (by simpa using hd), h]
      cases zeros with
      | zero => rw [Nat.pow_zero, Nat.mul_one]
      | succ zeros =>
        have hbounds := digitValue_bounds hlast hd
        rw [hvalue, Nat.pow_succ, ← Nat.mul_assoc] at h
        omega

theorem length_significant_le {text : List Char} {d : Decimal} (h : Writes text d)
    {c zeros n : Nat} (hcoefficient : d.coefficient = c * 10 ^ zeros)
    (hplaces : d.places ≠ 0 → zeros = 0) (hlt : c < 10 ^ n) : (significant text).length ≤ n := by
  cases h with
  | whole hne hdigits =>
    have hpoint : '.' ∉ text := fun hmem => absurd (hdigits '.' hmem) (by decide)
    rw [Decimal.ofDigits, List.append_nil] at hcoefficient
    rw [significant, if_neg hpoint]
    refine length_dropWhile_le (fun d hd => ?_) ?_
    · exact hdigits d ((List.rdropWhile_prefix _ _).mem hd)
    · exact (ofDigitChars_rdropWhile_le hdigits hcoefficient).trans_lt hlt
  | @fraction digits places hne hdigits hsome hplaces' =>
    have hpoint : '.' ∈ digits ++ '.' :: places := List.mem_append_right _ List.mem_cons_self
    have hfilter : (digits ++ '.' :: places).filter (· ≠ '.') = digits ++ places := by
      rw [List.filter_append, List.filter_eq_self.mpr (ne_point_of_digits hdigits),
        List.filter_cons_of_neg (by decide), List.filter_eq_self.mpr (ne_point_of_digits hplaces')]
    have hzeros : zeros = 0 := hplaces (List.length_pos_iff.mpr hsome).ne'
    rw [Decimal.ofDigits, hzeros, Nat.pow_zero, Nat.mul_one] at hcoefficient
    rw [significant, if_pos hpoint, hfilter]
    refine length_dropWhile_le (fun d hd => ?_) (hcoefficient.trans_lt hlt)
    exact (List.mem_append.mp hd).elim (hdigits d) (hplaces' d)

end Significant

namespace Binary64

variable {x : Binary64}

theorem text_of_finite (hfinite : x.isFinite = true) (hsign : x.isNegative = false) :
    x.text = String.ofList x.shortestDecimal.text := by
  have hmagnitude := of_decide_eq_true hfinite
  have hnan : x.isNaN = false := decide_eq_false (Nat.lt_asymm hmagnitude)
  have hinfinite : x.isInfinite = false := decide_eq_false hmagnitude.ne
  simp [text, hnan, hinfinite, hsign]

-- The decimal that is printed is read as the number, and so is none with fewer digits.
theorem shortestDecimal_spec (hpos : 0 < x.magnitude) :
    ∃ c zeros : Nat, x.shortestDecimal.coefficient = c * 10 ^ zeros ∧
      (x.shortestDecimal.places ≠ 0 → zeros = 0) ∧
      (Rounding.ofBinary64 x).Coarsest c (zeros - x.shortestDecimal.places) := by
  rw [shortestDecimal, if_neg hpos.ne']
  exact Rounding.shortest_coarsest (Rounding.proper_ofBinary64 hpos) (Rounding.exact_ofBinary64 x)

theorem toBinary64_shortestDecimal (hfinite : x.isFinite = true) (hsign : x.isNegative = false) :
    x.shortestDecimal.toBinary64 = x := by
  rcases Nat.eq_zero_or_pos x.magnitude with hzero | hpos
  · have hvalue : RoundsTo ((⟨0, 0⟩ : Decimal).value * 2 ^ 1074) 0 := by
      rw [Decimal.value, Nat.cast_zero, zero_div, zero_mul]
      exact roundsTo_zero
    rw [shortestDecimal, if_pos hzero, Decimal.toBinary64_eq_of_roundsTo hvalue, Nat.zero_min,
      ← hzero]
    exact (eq_ofMagnitude hsign).symm
  · obtain ⟨c, zeros, hcoefficient, -, hcoarsest⟩ := shortestDecimal_spec hpos
    have hvalue : x.shortestDecimal.value = c * 10 ^ (zeros - x.shortestDecimal.places : ℤ) := by
      rw [Decimal.value, hcoefficient, zpow_sub₀ (by norm_num), zpow_natCast, zpow_natCast]
      push_cast
      ring
    have hcontains := hcoarsest.contains
    rw [← hvalue, Rounding.contains_ofBinary64_iff_isNearest (Decimal.value_nonneg _) hsign hfinite
      hpos, Decimal.isNearest_iff_eq_toBinary64] at hcontains
    exact hcontains.symm

theorem magnitude_pos_of_value (hsign : x.isNegative = false) (h : 0 < x.value) :
    0 < x.magnitude := by
  rw [Nat.pos_iff_ne_zero]
  intro hzero
  rw [value_of_unsigned hsign, hzero, units_zero, Nat.cast_zero, zero_div] at h
  exact lt_irrefl 0 h

theorem length_significant_le_of_toBinary64 (hfinite : x.isFinite = true)
    (hsign : x.isNegative = false) (hpos : 0 < x.value) {d : Decimal} (hd : d.toBinary64 = x)
    {coefficient : Nat} {exponent : ℤ} (hvalue : d.value = coefficient * 10 ^ exponent) :
    (significant x.shortestDecimal.text).length ≤ (Nat.toDigits 10 coefficient).length := by
  have hmagnitude := magnitude_pos_of_value hsign hpos
  obtain ⟨c, zeros, hcoefficient, hplaces, hcoarsest⟩ := shortestDecimal_spec hmagnitude
  have hnearest := (d.isNearest_iff_eq_toBinary64 x).mpr hd.symm
  rw [← Rounding.contains_ofBinary64_iff_isNearest d.value_nonneg hsign hfinite hmagnitude,
    hvalue] at hnearest
  have hdigits : coefficient < 10 ^ (Nat.toDigits 10 coefficient).length :=
    (Nat.length_toDigits_le_iff (by decide) Nat.length_toDigits_pos).mp le_rfl
  exact length_significant_le (Decimal.writes_text _) hcoefficient hplaces
    (hcoarsest.lt_pow hnearest Nat.length_toDigits_pos hdigits)

end Binary64

end Number

open Lox.Text

-- A finite number without a sign is printed as a numeral, from which just its own bits are read. Of
-- all decimals from which they are read none has fewer digits that count.
theorem printed_number_reads_back {x : Binary64} (hfinite : x.isFinite = true)
    (hsign : x.isNegative = false) :
    let text := (Literal.number x).text
    (∃ d, Writes text.toList d) ∧
      (∀ log, scan log text =
        ([.ofLexeme (.number x) text, .eofAt (.behind text text.toList)], log)) ∧
      (0 < x.value → ∀ d : Decimal, d.toBinary64 = x →
        ∀ (coefficient : ℕ) (exponent : ℤ), d.value = coefficient * 10 ^ exponent →
          (significant text.toList).length ≤ (Nat.toDigits 10 coefficient).length) := by
  have htext : (Literal.number x).text = String.ofList x.shortestDecimal.text :=
    Binary64.text_of_finite hfinite hsign
  have hwrites : Writes (Literal.number x).text.toList x.shortestDecimal := by
    rw [htext, String.toList_ofList]
    exact x.shortestDecimal.writes_text
  refine ⟨⟨_, hwrites⟩, fun log => ?_, ?_⟩
  · have hscan := scan_of_writes hwrites log
    rwa [Binary64.toBinary64_shortestDecimal hfinite hsign] at hscan
  · intro hpos d hd coefficient exponent hvalue
    rw [htext, String.toList_ofList]
    exact Binary64.length_significant_le_of_toBinary64 hfinite hsign hpos hd hvalue

-- All sixteen digits are needed here, while the last one of another decimal need not be the same.
theorem printed_number_reads_back_integer :
    ∃ x : Binary64, x.bits = 0x4340000000000000 ∧ (Literal.number x).text = "9007199254740992" ∧
      (∀ log, scan log "9007199254740992" = ([.ofLexeme (.number x) "9007199254740992",
        .eofAt (.behind "9007199254740992" "9007199254740992".toList)], log)) ∧
      (⟨9007199254740993, 0⟩ : Decimal).toBinary64 = x ∧
      (significant "9007199254740992".toList).length ≤ (Nat.toDigits 10 9007199254740993).length := by
  have htext : (Literal.number ⟨0x4340000000000000⟩).text = "9007199254740992" := by decide +kernel
  have hpos : 0 < (⟨0x4340000000000000⟩ : Binary64).value := by decide +kernel
  have hread : (⟨9007199254740993, 0⟩ : Decimal).toBinary64 = ⟨0x4340000000000000⟩ :=
    congrArg Binary64.mk (by decide +kernel)
  have hvalue : (⟨9007199254740993, 0⟩ : Decimal).value = (9007199254740993 : ℕ) * 10 ^ (0 : ℤ) := by
    simp [Decimal.value]
  obtain ⟨-, hscan, hfewest⟩ :=
    printed_number_reads_back (show (⟨0x4340000000000000⟩ : Binary64).isFinite = true by decide)
      (show (⟨0x4340000000000000⟩ : Binary64).isNegative = false by decide)
  rw [htext] at hscan hfewest
  exact ⟨_, rfl, htext, hscan, hread, hfewest hpos _ hread _ _ hvalue⟩

end Lox
