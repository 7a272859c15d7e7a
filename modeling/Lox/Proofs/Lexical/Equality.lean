import Lox.Proofs.Lexical.Layout

namespace Lox

namespace Number.Binary64

-- Rounding never gives a sign, nor anything above the infinite number.
theorem toNat_bits_nearest_le (num den : Nat) :
    (nearest num den).bits.toNat ≤ infiniteMagnitude := by
  have hofNat {n : Nat} (hn : n ≤ infiniteMagnitude) : (UInt64.ofNat n).toNat ≤ infiniteMagnitude := by
    rw [UInt64.toNat_ofNat']
    exact Nat.le_trans (Nat.mod_le _ _) hn
  exact hofNat (Nat.min_le_right _ _)

theorem isNegative_nearest (num den : Nat) : (nearest num den).isNegative = false := by
  have hle := toNat_bits_nearest_le num den
  have hlt : infiniteMagnitude < Nat.pow 2 63 := by decide
  rw [isNegative, decide_eq_false_iff_not]
  omega

-- Rounding always gives a number.
theorem isNaN_nearest (num den : Nat) : (nearest num den).isNaN = false := by
  have hle := toNat_bits_nearest_le num den
  have hmod := Nat.mod_le (nearest num den).bits.toNat (Nat.pow 2 63)
  rw [isNaN, magnitude, decide_eq_false_iff_not]
  omega

theorem beq_self {x : Binary64} (h : x.isNaN = false) : (x == x) = true := by
  change (!x.isNaN && !x.isNaN && (x.bits == x.bits || (x.magnitude == 0 && x.magnitude == 0))) = true
  rw [h, beq_self_eq_true]
  rfl

-- Without a sign there is only one zero, so equal numbers are the same.
theorem eq_of_beq {x y : Binary64} (hx : x.isNegative = false) (hy : y.isNegative = false)
    (h : (x == y) = true) : x = y := by
  have hmagnitude {z : Binary64} (hz : z.isNegative = false) : z.magnitude = z.bits.toNat := by
    rw [isNegative, decide_eq_false_iff_not, Nat.not_le] at hz
    exact Nat.mod_eq_of_lt hz
  have hbits : x.bits = y.bits := by
    change (!x.isNaN && !y.isNaN &&
      (x.bits == y.bits || (x.magnitude == 0 && y.magnitude == 0))) = true at h
    simp only [Bool.and_eq_true, Bool.or_eq_true, beq_iff_eq, hmagnitude hx, hmagnitude hy] at h
    rcases h.2 with hsame | ⟨hzero, hzero'⟩
    · exact hsame
    · exact UInt64.toNat_inj.mp (hzero.trans hzero'.symm)
  obtain ⟨bits⟩ := x
  obtain ⟨bits'⟩ := y
  exact congrArg mk hbits

end Number.Binary64

namespace Lexical

open Lox.Number

-- The value of a number comes from rounding.
theorem Spells.exists_nearest {text : List Char} {value : Binary64}
    (h : Spells text (.token (.number value))) : ∃ num den, value = .nearest num den := by
  cases h <;> exact ⟨_, _, rfl⟩

theorem exists_nearest_of_mem_scan {log : Log} {source : String} {t : Token} {value : Binary64}
    (h : t ∈ (scan log source).1) (ht : t.data = .number value) :
    ∃ num den, value = .nearest num den :=
  (spells_of_mem_scan h ht rfl).exists_nearest

-- A meaning with a number only without a sign.
def Unsigned (data : TokenData) : Prop := ∀ value, data = .number value → value.isNegative = false

theorem unsigned_of_mem_scan {log : Log} {source : String} {t : Token}
    (h : t ∈ (scan log source).1) : Unsigned t.data := by
  intro value hvalue
  obtain ⟨num, den, rfl⟩ := exists_nearest_of_mem_scan h hvalue
  exact Binary64.isNegative_nearest num den

theorem Unsigned.eq_of_beq {a b : TokenData} (ha : Unsigned a) (hb : Unsigned b)
    (h : (a == b) = true) : a = b := by
  change (decide (a.kind = b.kind) && a.payload? == b.payload?) = true at h
  rw [Bool.and_eq_true, decide_eq_true_eq] at h
  obtain ⟨hkind, hpayload⟩ := h
  cases a with
  | str text =>
    cases b <;> cases hkind
    rename_i text'
    have htext : (text == text') = true := hpayload
    rw [beq_iff_eq.mp htext]
  | number value =>
    cases b <;> cases hkind
    rename_i value'
    have hvalue : (value == value') = true := hpayload
    rw [Binary64.eq_of_beq (ha value rfl) (hb value' rfl) hvalue]
  | symbol | keyword | identifier | eof =>
    cases b <;> cases hkind
    rfl

theorem eq_of_beq_of_unsigned {left right : List TokenData} (hleft : ∀ data ∈ left, Unsigned data)
    (hright : ∀ data ∈ right, Unsigned data) (h : (left == right) = true) : left = right := by
  induction left generalizing right with
  | nil =>
    cases right with
    | nil => rfl
    | cons b right => cases h
  | cons a left ih =>
    cases right with
    | nil => cases h
    | cons b right =>
      rw [List.cons_beq_cons, Bool.and_eq_true] at h
      have hhead := (hleft a List.mem_cons_self).eq_of_beq (hright b List.mem_cons_self) h.1
      have htail := ih (fun data hmem => hleft data (List.mem_cons_of_mem _ hmem))
        (fun data hmem => hright data (List.mem_cons_of_mem _ hmem)) h.2
      rw [hhead, htail]

-- Equal meanings of the tokens of two scans are the same meanings.
theorem scan_data_eq_of_beq {log log' : Log} {source other : String}
    (h : ((scan log source).1.map Token.data == (scan log' other).1.map Token.data) = true) :
    (scan log source).1.map Token.data = (scan log' other).1.map Token.data := by
  have hunsigned (log : Log) (source : String) :
      ∀ data ∈ (scan log source).1.map Token.data, Unsigned data := by
    intro data hdata
    obtain ⟨t, ht, rfl⟩ := List.mem_map.mp hdata
    exact unsigned_of_mem_scan ht
  exact eq_of_beq_of_unsigned (hunsigned log source) (hunsigned log' other) h

end Lexical

end Lox
