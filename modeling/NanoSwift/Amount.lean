import NanoSwift.Text
import Mathlib.Data.Rat.Floor
import Mathlib.Algebra.Order.Round

/-!
# Amounts

An amount is a decimal number of raw (`NanoAmount`); decimal arithmetic is taken
to be exact, so that numbers are rational. It is read and printed by a number
formatter, in the current locale (`Locale`), which knows ten digits, a minus
sign, and how to read a number. What is read is a number that Foundation
represents (`NSDecimalNumber`), so that not every numeral is read as what it
denotes.

* Natural numbers are represented if all but some zeros at their end fit into a
  mantissa (`represented_natCast_iff`).
* A natural number is printed as its decimal numeral exactly if its digits are
  printed as ASCII digits (`rawString_eq_decimal_iff`), as in locales with Latin
  digits (`rawString_of_isLatin`).
-/

namespace NanoSwift

/-! ## Number formatting -/

/-- The decimal numeral of `n`. -/
def decimal (n : ℕ) : Str := (Radix.numeral 10 n).map digit

@[simp] theorem parseDigits_decimal (n : ℕ) : parseDigits 10 (decimal n) = some n := by
  rw [decimal, parseDigits_map_digit (by decide) (Radix.numeral_ne_nil n)
    fun d => Radix.lt_of_mem_numeral (by decide), Radix.value_numeral]

theorem decimal_injective : Function.Injective decimal := fun n m h => by
  have := parseDigits_decimal n
  rw [h, parseDigits_decimal] at this
  exact (Option.some.inj this).symm

/-- A decimal number as Foundation has it: with a mantissa of 128 bits, into which
    any 38 digits fit, and an exponent of 8 bits. -/
structure NSDecimalNumber where
  isNegative : Bool
  mantissa : BitVec 128
  exponent : Int8

/-- What a decimal number denotes. -/
def NSDecimalNumber.value (v : NSDecimalNumber) : ℚ :=
  (if v.isNegative then -1 else 1) * v.mantissa.toNat * 10 ^ v.exponent.toInt

/-- The number is one that Foundation represents. -/
def Represented (b : ℚ) : Prop := ∃ v : NSDecimalNumber, v.value = b

/-- The leading digits of a number for which there is room, and zeros for the others. -/
def NSDecimalNumber.ofNat (n : ℕ) : Option NSDecimalNumber :=
  ((List.range 128).find? fun k => n / 10 ^ k < 2 ^ 128).map fun k =>
    { isNegative := false, mantissa := BitVec.ofNat 128 (n / 10 ^ k), exponent := Int8.ofNat k }

namespace NSDecimalNumber

/-- A decimal number made of the leading digits of `n` denotes these and zeros. -/
theorem value_leading {n k : ℕ} (hk : k < 128) (hlt : n / 10 ^ k < 2 ^ 128) :
    (NSDecimalNumber.mk false (BitVec.ofNat 128 (n / 10 ^ k)) (Int8.ofNat k)).value =
      (n / 10 ^ k * 10 ^ k : ℕ) := by
  rw [value, BitVec.toNat_ofNat, Nat.mod_eq_of_lt hlt, Int8.toInt_ofNat_of_lt (by omega)]
  simp

/-- Numbers with at most 128 bits are kept. -/
theorem value_ofNat_of_lt {n : ℕ} (h : n < 2 ^ 128) : ∃ v ∈ ofNat n, v.value = n := by
  refine ⟨⟨false, BitVec.ofNat 128 (n / 10 ^ 0), Int8.ofNat 0⟩, ?_, ?_⟩
  · rw [ofNat, List.range_succ_eq_map, List.find?_cons_of_pos (by simpa using h)]
    rfl
  · rw [value_leading (by decide) (by simpa using h)]
    simp

end NSDecimalNumber

/-- A natural number is represented if and only if it has zeros at its end, if any, the
    other digits before which denote a number of 128 bits. -/
theorem represented_natCast_iff {n : ℕ} :
    Represented n ↔ ∃ k < 128, n / 10 ^ k < 2 ^ 128 ∧ 10 ^ k ∣ n := by
  constructor
  · rintro ⟨v, hv⟩
    have hm : v.mantissa.toNat < 2 ^ 128 := v.mantissa.isLt
    rcases Nat.eq_zero_or_pos n with rfl | hn
    · exact ⟨0, by decide, by simp, by simp⟩
    have hpos : (0 : ℚ) < 10 ^ v.exponent.toInt := by positivity
    -- The sign is no minus sign.
    have hvalue : (v.mantissa.toNat : ℚ) * 10 ^ v.exponent.toInt = n := by
      rw [NSDecimalNumber.value] at hv
      split_ifs at hv
      · have hn' : (0 : ℚ) < n := Nat.cast_pos.2 hn
        have hle : (0 : ℚ) ≤ v.mantissa.toNat * 10 ^ v.exponent.toInt := by positivity
        linarith
      · rwa [one_mul] at hv
    have hexponent : v.exponent.toInt < 128 := v.exponent.toInt_lt
    rcases Int.le_total 0 v.exponent.toInt with he | he
    · obtain ⟨k, hk⟩ := Int.eq_ofNat_of_zero_le he
      rw [hk, zpow_natCast] at hvalue
      have heq : v.mantissa.toNat * 10 ^ k = n := by exact_mod_cast hvalue
      refine ⟨k, by omega, ?_, ⟨v.mantissa.toNat, by rw [← heq, mul_comm]⟩⟩
      rwa [← heq, Nat.mul_div_cancel _ (by positivity)]
    · -- Digits after the point are zeros of the mantissa.
      obtain ⟨k, hk⟩ := Int.eq_ofNat_of_zero_le (neg_nonneg.2 he)
      rw [← neg_neg v.exponent.toInt, hk, zpow_neg, zpow_natCast,
        mul_inv_eq_iff_eq_mul₀ (by positivity)] at hvalue
      have heq : v.mantissa.toNat = n * 10 ^ k := by exact_mod_cast hvalue
      refine ⟨0, by decide, ?_, by simp⟩
      rw [pow_zero, Nat.div_one]
      exact (Nat.le_mul_of_pos_right n (by positivity)).trans_lt (heq ▸ hm)
  · rintro ⟨k, hk, hlt, hdvd⟩
    exact ⟨_, by rw [NSDecimalNumber.value_leading hk hlt, Nat.div_mul_cancel hdvd]⟩

/-- Represented numbers are kept, as the digits that are left out are zeros. -/
theorem NSDecimalNumber.value_ofNat {n : ℕ} (h : Represented n) : ∃ v ∈ ofNat n, v.value = n := by
  obtain ⟨k, hk, hlt, hdvd⟩ := represented_natCast_iff.1 h
  cases hfind : (List.range 128).find? fun k => n / 10 ^ k < 2 ^ 128 with
  | none => exact absurd hlt (by simpa using List.find?_eq_none.1 hfind k (List.mem_range.2 hk))
  | some j =>
    have hj : j < 128 := List.mem_range.1 (List.mem_of_find?_eq_some hfind)
    have hltj : n / 10 ^ j < 2 ^ 128 := by simpa using List.find?_some hfind
    refine ⟨_, by rw [ofNat, hfind]; rfl, ?_⟩
    -- No more digits are left out than there are zeros.
    have hjk : j ≤ k := by
      by_contra hlater
      obtain ⟨-, i, hi, heq, hbefore⟩ := List.find?_eq_some_iff_getElem.1 hfind
      rw [List.getElem_range] at heq
      have hno := hbefore k (by omega)
      rw [List.getElem_range] at hno
      exact absurd hlt (by simpa using hno)
    rw [value_leading hj hltj, Nat.div_mul_cancel ((pow_dvd_pow 10 hjk).trans hdvd)]

/-- A locale, as far as number formatters use it. A digit that is an ASCII digit
    stands for itself, the minus sign has none, and the decimal numerals of numbers
    of 128 bits are read as what they denote. -/
structure Locale where
  /-- The digits. -/
  digit : Fin 10 → Character
  /-- What stands before negative numbers. -/
  minusSign : Str
  /-- Reading a number. -/
  number : Str → Option NSDecimalNumber
  digit_own : ∀ d v, parseInt (digit d) = some v → v = d
  minusSign_no_digit : ∀ c ∈ minusSign, parseInt c = none
  number_decimal : ∀ n : ℕ, n < 2 ^ 128 → ∃ v ∈ number (decimal n), v.value = n

/-- The nearest integer, and the even one of two. -/
def roundHalfEven (b : ℚ) : ℤ :=
  if b - ⌊b⌋ < 1 / 2 then ⌊b⌋
  else if 1 / 2 < b - ⌊b⌋ then ⌊b⌋ + 1
  else if ⌊b⌋ % 2 = 0 then ⌊b⌋ else ⌊b⌋ + 1

/-- A number as a formatter prints it by default: without a fraction. -/
def Locale.string (l : Locale) (b : ℚ) : Str :=
  (if b < 0 then l.minusSign else []) ++
    (Radix.numeral 10 (roundHalfEven b).natAbs).map fun d => l.digit (Fin.ofNat 10 d)

/-- The digits of the locale are the ASCII ones. -/
def Locale.IsLatin (l : Locale) : Prop := ∀ d : Fin 10, l.digit d = NanoSwift.digit d

/-- The locale of the programming language C. -/
def Locale.posix : Locale where
  digit d := NanoSwift.digit d
  minusSign := text "-"
  number s := (parseDigits 10 s).bind NSDecimalNumber.ofNat
  digit_own d v h := by
    have hd : (NanoSwift.digit d).digit 10 = some (d : ℕ) := digit_digit (by decide) d.isLt
    exact (Option.some.inj (hd.symm.trans h)).symm
  minusSign_no_digit := by decide
  number_decimal n hn := by
    rw [parseDigits_decimal]
    exact NSDecimalNumber.value_ofNat_of_lt hn

/-- The ASCII digit of an Arabic-Indic one; other characters are kept. -/
def latinDigit : Character → Character
  | .scalar c =>
    if 0x660 ≤ c.toNat ∧ c.toNat ≤ 0x669 then NanoSwift.digit (c.toNat - 0x660) else .scalar c
  | c => c

/-- A locale that prints Arabic-Indic digits, and reads these as well as ASCII digits. -/
def Locale.arabicIndic : Locale where
  digit d := .scalar (Char.ofNat (0x660 + d))
  minusSign := text "-"
  number s := (parseDigits 10 (s.map latinDigit)).bind NSDecimalNumber.ofNat
  digit_own := by decide
  minusSign_no_digit := by decide
  number_decimal n hn := by
    have hkeep : (decimal n).map latinDigit = decimal n := by
      have hdigits : ∀ d < 10, latinDigit (NanoSwift.digit d) = NanoSwift.digit d := by decide
      rw [decimal, List.map_map]
      exact List.map_congr_left fun d hd => hdigits d (Radix.lt_of_mem_numeral (by decide) hd)
    rw [hkeep]
    exact Locale.posix.number_decimal n hn

theorem Locale.posix_isLatin : Locale.posix.IsLatin := fun _ => rfl

@[simp] theorem roundHalfEven_intCast (n : ℤ) : roundHalfEven n = n := by
  simp [roundHalfEven]

/-- Printing is off by at most a half. -/
theorem abs_sub_roundHalfEven_le (b : ℚ) : |b - roundHalfEven b| ≤ 1 / 2 := by
  have h₀ := Int.floor_le b
  have h₁ := Int.lt_floor_add_one b
  unfold roundHalfEven
  split_ifs <;> rw [abs_le] <;> push_cast <;> refine ⟨?_, ?_⟩ <;> linarith

/-! ## Amounts -/

/-- An amount, in raw. -/
@[ext]
structure NanoAmount where
  rawAmount : ℚ
  deriving DecidableEq

namespace NanoAmount

/-- The amount a string denotes, `0` if it denotes none. -/
def ofRaw (l : Locale) (raw : Str) : NanoAmount :=
  match l.number raw with
  | some value => ⟨value.value⟩
  | none => ⟨0⟩

/-- The decimal numeral of a number of 128 bits is read as that. -/
theorem ofRaw_decimal (l : Locale) {n : ℕ} (hn : n < 2 ^ 128) : ofRaw l (decimal n) = ⟨n⟩ := by
  obtain ⟨v, hv, hvalue⟩ := l.number_decimal n hn
  rw [ofRaw, Option.mem_def.1 hv]
  exact congrArg NanoAmount.mk hvalue

/-- Comparison, by cases of the order of the raw amounts. -/
def le (lhs rhs : NanoAmount) : Prop :=
  cmp lhs.rawAmount rhs.rawAmount = .lt ∨ cmp lhs.rawAmount rhs.rawAmount = .eq

instance : LE NanoAmount := ⟨le⟩

instance (lhs rhs : NanoAmount) : Decidable (lhs ≤ rhs) :=
  inferInstanceAs (Decidable (cmp lhs.rawAmount rhs.rawAmount = .lt ∨
    cmp lhs.rawAmount rhs.rawAmount = .eq))

instance : Add NanoAmount := ⟨fun lhs rhs => ⟨lhs.rawAmount + rhs.rawAmount⟩⟩

instance : Sub NanoAmount := ⟨fun lhs rhs => ⟨lhs.rawAmount - rhs.rawAmount⟩⟩

theorem le_iff {lhs rhs : NanoAmount} : lhs ≤ rhs ↔ lhs.rawAmount ≤ rhs.rawAmount := by
  change cmp _ _ = .lt ∨ cmp _ _ = .eq ↔ _
  rw [cmp_eq_lt_iff, cmp_eq_eq_iff, le_iff_lt_or_eq]

@[simp] theorem add_rawAmount (lhs rhs : NanoAmount) :
    (lhs + rhs).rawAmount = lhs.rawAmount + rhs.rawAmount := rfl

@[simp] theorem sub_rawAmount (lhs rhs : NanoAmount) :
    (lhs - rhs).rawAmount = lhs.rawAmount - rhs.rawAmount := rfl

/-- The amount as it is printed, for the node and for hashing alike. -/
def rawString (l : Locale) (a : NanoAmount) : Str := l.string a.rawAmount

end NanoAmount

/-! ## Printed integers -/

theorem parseInt_digit {d : ℕ} (hd : d < 10) : parseInt (digit d) = some d :=
  digit_digit (by decide) hd

/-- A natural number is printed with the digits of the locale. -/
theorem rawString_natCast (l : Locale) (n : ℕ) :
    (NanoAmount.mk n).rawString l = (Radix.numeral 10 n).map fun d => l.digit (Fin.ofNat 10 d) := by
  have hround : roundHalfEven (n : ℚ) = n := roundHalfEven_intCast n
  rw [NanoAmount.rawString, Locale.string, if_neg (not_lt.2 (Nat.cast_nonneg n)), hround]
  rfl

/-- The digits of `n` are printed as ASCII digits. -/
def Locale.PrintsLatin (l : Locale) (n : ℕ) : Prop :=
  ∀ d ∈ Radix.numeral 10 n, l.digit (Fin.ofNat 10 d) = NanoSwift.digit d

/-- A natural number is printed as a decimal numeral if and only if its digits
    are printed as ASCII digits; it is its own numeral then. -/
theorem rawString_eq_decimal_iff (l : Locale) (n m : ℕ) :
    (NanoAmount.mk n).rawString l = decimal m ↔ n = m ∧ l.PrintsLatin n := by
  have hlt : ∀ {n d : ℕ}, d ∈ Radix.numeral 10 n → d < 10 := Radix.lt_of_mem_numeral (by decide)
  refine ⟨fun h => ?_, ?_⟩
  · -- A digit that is printed occurs in an ASCII numeral, and is then its own.
    have hown : ∀ d ∈ Radix.numeral 10 n, l.digit (Fin.ofNat 10 d) = digit d := by
      intro d hd
      have hmem : l.digit (Fin.ofNat 10 d) ∈ decimal m := by
        rw [← h, rawString_natCast]
        exact List.mem_map_of_mem hd
      obtain ⟨e, he, heq⟩ := List.mem_map.1 hmem
      have hv := l.digit_own (Fin.ofNat 10 d) e (heq ▸ parseInt_digit (hlt he))
      rw [Fin.val_ofNat, Nat.mod_eq_of_lt (hlt hd)] at hv
      rw [← heq, hv]
    refine ⟨?_, hown⟩
    rw [rawString_natCast, List.map_congr_left hown] at h
    exact decimal_injective h
  · rintro ⟨rfl, hown⟩
    rw [rawString_natCast, List.map_congr_left hown]
    rfl

/-- With Latin digits, integers are printed as decimal numerals. -/
theorem rawString_of_isLatin {l : Locale} (hl : l.IsLatin) (n : ℕ) :
    (NanoAmount.mk n).rawString l = decimal n := by
  refine (rawString_eq_decimal_iff l n n).2 ⟨rfl, fun d hd => ?_⟩
  rw [hl, Fin.val_ofNat, Nat.mod_eq_of_lt (Radix.lt_of_mem_numeral (by decide) hd)]

end NanoSwift
