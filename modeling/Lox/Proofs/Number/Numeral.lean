import Lox.Proofs.Guarded.Return
import Lox.Proofs.Lexical.Distinct
import Lox.Proofs.Number.Nearest

namespace Lox

open Lox.Guarded Lox.Number

namespace Number

def digitValue (c : Char) : Nat := c.toNat - '0'.toNat

-- A digit in front of the point makes ten times as much of the digits in front of it.
def wholeValue (digits : List Char) : ℚ :=
  digits.foldl (fun value c => 10 * value + digitValue c) 0

-- A digit behind the point leaves a tenth of the digits behind it.
def fractionValue : List Char → ℚ
  | [] => 0
  | c :: digits => (digitValue c + fractionValue digits) / 10

-- The number that digits denote which may have a point between them.
def numeralValue (text : List Char) : ℚ :=
  wholeValue (text.takeWhile (· ≠ '.')) + fractionValue (text.dropWhile (· ≠ '.')).tail

theorem wholeValue_eq (digits : List Char) : wholeValue digits = Nat.ofDigitChars 10 digits 0 := by
  have hfold (start : Nat) : digits.foldl (fun value c => 10 * value + (digitValue c : ℚ)) start =
      Nat.ofDigitChars 10 digits start := by
    induction digits generalizing start with
    | nil => simp
    | cons c digits ih =>
      rw [List.foldl_cons, Nat.ofDigitChars_cons, ← ih]
      push_cast [digitValue]
      rfl
  simpa [wholeValue] using hfold 0

theorem fractionValue_eq (digits : List Char) :
    fractionValue digits = Nat.ofDigitChars 10 digits 0 / 10 ^ digits.length := by
  induction digits with
  | nil => simp [fractionValue]
  | cons c digits ih =>
    have hshift : Nat.ofDigitChars 10 (c :: digits) 0 =
        10 ^ digits.length * digitValue c + Nat.ofDigitChars 10 digits 0 := by
      rw [Nat.ofDigitChars_cons, Nat.mul_zero, Nat.zero_add]
      exact Nat.ofDigitChars_eq_ofDigitChars_zero
    rw [fractionValue, ih, hshift, List.length_cons]
    push_cast
    field_simp
    ring

theorem ofDigits_value (whole places : List Char) :
    (Decimal.ofDigits whole places).value = wholeValue whole + fractionValue places := by
  rw [wholeValue_eq, fractionValue_eq, Decimal.value, Decimal.ofDigits, Nat.ofDigitChars_append,
    Nat.ofDigitChars_eq_ofDigitChars_zero]
  push_cast
  field_simp

theorem ne_point_of_digits {digits : List Char} (h : ∀ d ∈ digits, d.isDigit = true) :
    ∀ d ∈ digits, decide (d ≠ '.') = true := by
  intro d hd
  rw [decide_eq_true_eq]
  exact Lexical.mem_of_digits h hd (by decide)

theorem numeralValue_of_writes {text : List Char} {d : Decimal} (h : Writes text d) :
    numeralValue text = d.value := by
  unfold numeralValue
  cases h with
  | whole hne hdigits =>
    rw [List.takeWhile_eq_self_iff.mpr (ne_point_of_digits hdigits),
      List.dropWhile_eq_nil_iff.mpr (ne_point_of_digits hdigits), ofDigits_value, List.tail_nil]
  | @fraction digits places hne hdigits hsome hplaces =>
    rw [List.takeWhile_append_of_pos (ne_point_of_digits hdigits),
      List.dropWhile_append_of_pos (ne_point_of_digits hdigits), ofDigits_value]
    simp

theorem toBinary64_eq_of_value {d e : Decimal} (h : d.value = e.value) :
    d.toBinary64 = e.toBinary64 := by
  have hnearest := (d.isNearest_iff_eq_toBinary64 d.toBinary64).mpr rfl
  rw [h] at hnearest
  exact (e.isNearest_iff_eq_toBinary64 _).mp hnearest

namespace Binary64

-- The order of numbers without a sign. Nothing lies above the infinite one.
def AtMost (x y : Binary64) : Prop :=
  y.isInfinite = true ∨ x.isFinite = true ∧ y.isFinite = true ∧ x.value ≤ y.value

end Binary64

theorem atMost_of_value_le {d e : Decimal} (h : d.value ≤ e.value) :
    d.toBinary64.AtMost e.toBinary64 := by
  have hd := d.roundsTo_value 1074
  have he := e.roundsTo_value 1074
  have hle := hd.le_of_le he (mul_le_mul_of_nonneg_right h (by positivity))
  rw [Decimal.toBinary64_eq_of_roundsTo hd, Decimal.toBinary64_eq_of_roundsTo he]
  generalize Binary64.rounded (d.coefficient * _) _ = m at hle
  generalize Binary64.rounded (e.coefficient * _) _ = k at hle
  have hfields := Binary64.infiniteMagnitude_eq
  have hm : min m Binary64.infiniteMagnitude < 2 ^ 63 := by omega
  have hk : min k Binary64.infiniteMagnitude < 2 ^ 63 := by omega
  unfold Binary64.AtMost Binary64.isInfinite Binary64.isFinite
  rw [Binary64.value_le_iff (Binary64.isNegative_ofMagnitude hm) (Binary64.isNegative_ofMagnitude hk),
    Binary64.magnitude_ofMagnitude hm, Binary64.magnitude_ofMagnitude hk]
  simp only [decide_eq_true_eq]
  omega

end Number

open Lexical Lox.Text

theorem spells_of_writes {text : List Char} {d : Decimal} (h : Writes text d) :
    Spells text (.token (.number d.toBinary64)) := by
  cases h with
  | whole hne hdigits =>
    obtain ⟨digit, digits, rfl⟩ := List.exists_cons_of_ne_nil hne
    exact .whole hdigits
  | fraction hne hdigits hsome hplaces =>
    obtain ⟨digit, digits, rfl⟩ := List.exists_cons_of_ne_nil hne
    obtain ⟨first, places, rfl⟩ := List.exists_cons_of_ne_nil hsome
    exact .fraction hdigits hplaces

-- A numeral on its own is one token over all of it.
theorem scan_of_writes {source : String} {d : Decimal} (h : Writes source.toList d) (log : Log) :
    scan log source =
      ([.ofLexeme (.number d.toBinary64) source, .eofAt (.behind source source.toList)], log) := by
  have hspells := spells_of_writes h
  have hcut := cut_of_ends hspells (ends_nil hspells)
  have hdivision : Division (source.toList ++ []) [⟨source.toList, .token (.number d.toBinary64)⟩] :=
    .cons hcut .nil
  rw [List.append_nil] at hdivision
  have hitems : (Stream.ofSource source).items =
      [.token (.ofLexeme (.number d.toBinary64) source),
        .token (.eofAt (.behind source source.toList))] := by
    rw [items_eq_of_division hdivision, Token.ofLexeme, Span.whole_eq_behind]
    rfl
  have hlog : (⟨log.entries ++ []⟩ : Log) = log := by rw [List.append_nil]
  rw [scan, Stream.collect_eq, hitems]
  exact Prod.ext rfl hlog

theorem exists_token_of_writes {source : String} {d : Decimal} (h : Writes source.toList d)
    (log : Log) :
    ∃ t ∈ (scan log source).1, t.data = .number d.toBinary64 ∧ t.lexeme = source := by
  rw [scan_of_writes h]
  exact ⟨_, List.mem_cons_self, rfl, Span.lexeme_whole source⟩

-- A number is what its lexeme denotes, rounded correctly. So it depends on nothing else of the
-- lexeme, and grows with what is denoted.
theorem payload_correctly_rounded {log log' : Log} {source source' : String} {t t' : Token}
    {x x' : Binary64} (ht : t ∈ (scan log source).1) (hx : t.data = .number x)
    (ht' : t' ∈ (scan log' source').1) (hx' : t'.data = .number x') :
    (∀ y : Binary64, y.IsNearest (numeralValue t.lexeme.toList) ↔ y = x) ∧
      (numeralValue t.lexeme.toList = numeralValue t'.lexeme.toList →
        t.data = t'.data ∧ (t.data == t'.data) = true) ∧
      (numeralValue t.lexeme.toList ≤ numeralValue t'.lexeme.toList → x.AtMost x') := by
  have hself : (t.data == t.data) = true := TokenData.beq_self (isNaN_of_mem_scan ht)
  obtain ⟨d, hd, rfl⟩ := number_of_mem_scan ht hx
  obtain ⟨e, he, rfl⟩ := number_of_mem_scan ht' hx'
  rw [numeralValue_of_writes hd, numeralValue_of_writes he]
  refine ⟨d.isNearest_iff_eq_toBinary64, fun h => ?_, atMost_of_value_le⟩
  have hsame : t.data = t'.data := by rw [hx, hx', toBinary64_eq_of_value h]
  exact ⟨hsame, hsame ▸ hself⟩

-- The middle between two numbers goes to the one with the even significand, however it is written.
theorem payload_correctly_rounded_halfway :
    ∃ t ∈ (scan .empty "9007199254740993").1, ∃ t' ∈ (scan .empty "09007199254740993.0").1,
      ∃ x : Binary64, x.bits = 0x4340000000000000 ∧ t.data = .number x ∧ t.data = t'.data ∧
        ∀ y : Binary64, y.IsNearest 9007199254740993 ↔ y = x := by
  have hdigits : ∀ d ∈ "09007199254740993".toList, d.isDigit = true := List.all_eq_true.mp rfl
  have hzero : ∀ d ∈ ['0'], d.isDigit = true := List.all_eq_true.mp rfl
  have hwhole : Writes "9007199254740993".toList _ :=
    .whole (List.cons_ne_nil _ _) fun d hd => hdigits d (List.mem_cons_of_mem _ hd)
  have hplaces : Writes "09007199254740993.0".toList _ :=
    .fraction (List.cons_ne_nil _ _) hdigits (List.cons_ne_nil _ _) hzero
  obtain ⟨t, ht, hx, hlexeme⟩ := exists_token_of_writes hwhole .empty
  obtain ⟨t', ht', hx', hlexeme'⟩ := exists_token_of_writes hplaces .empty
  have hvalue : numeralValue t.lexeme.toList = 9007199254740993 := by
    rw [hlexeme]
    decide +kernel
  have hvalue' : numeralValue t'.lexeme.toList = 9007199254740993 := by
    rw [hlexeme']
    decide +kernel
  obtain ⟨hnearest, hsame, -⟩ := payload_correctly_rounded ht hx ht' hx'
  rw [hvalue] at hnearest
  exact ⟨t, ht, t', ht', _, by decide +kernel, hx, (hsame (hvalue.trans hvalue'.symm)).1, hnearest⟩

end Lox
