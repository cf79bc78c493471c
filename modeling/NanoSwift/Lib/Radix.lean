import Mathlib.Data.List.TakeWhile
import Mathlib.Data.Nat.Digits.Lemmas
import Mathlib.Tactic

/-!
# Positional numerals

Numerals as they are written, the most significant digit first; Mathlib's
`Nat.ofDigits` and `Nat.digits` put the least significant digit first.

* `Radix.value`: the number a list of digits denotes.
* `Radix.numeral`: the shortest numeral of a number, `0` for zero, which denotes
  it (`value_numeral`).
* `Radix.fixed`: the `w` last digits of a number, with leading zeros; numerals
  of one length are determined by their values (`fixed_value`).
* `Radix.longDiv`: schoolbook division of a numeral by a small divisor, one
  digit at a time, with its carry (`value_longDiv`); no number that is divided
  reaches the product of the divisor and the base (`lt_of_mem_totals`).
-/

namespace Radix

variable {b : ℕ}

/-! ## Values -/

/-- The number denoted by the digits `ds` in base `b`. -/
def value (b : ℕ) (ds : List ℕ) : ℕ := Nat.ofDigits b ds.reverse

@[simp] theorem value_nil : value b [] = 0 := rfl

@[simp] theorem value_singleton (d : ℕ) : value b [d] = d := by simp [value]

theorem value_append (ds es : List ℕ) :
    value b (ds ++ es) = value b ds * b ^ es.length + value b es := by
  simp only [value, List.reverse_append, Nat.ofDigits_append, List.length_reverse]
  ring

theorem value_cons (d : ℕ) (ds : List ℕ) : value b (d :: ds) = d * b ^ ds.length + value b ds := by
  rw [← List.singleton_append, value_append, value_singleton]

@[simp] theorem value_zero_cons (ds : List ℕ) : value b (0 :: ds) = value b ds := by
  rw [value_cons, Nat.zero_mul, Nat.zero_add]

theorem value_replicate_zero_append (k : ℕ) (ds : List ℕ) :
    value b (List.replicate k 0 ++ ds) = value b ds := by
  induction k with
  | zero => rfl
  | succ k ih => rw [List.replicate_succ, List.cons_append, value_zero_cons, ih]

theorem value_lt (hb : 1 < b) {ds : List ℕ} (h : ∀ d ∈ ds, d < b) : value b ds < b ^ ds.length := by
  have := Nat.ofDigits_lt_base_pow_length hb (l := ds.reverse) fun d hd =>
    h d (List.mem_reverse.1 hd)
  rwa [List.length_reverse] at this

/-- Leading zeros do not count. -/
theorem value_dropWhile_zero (ds : List ℕ) :
    value b (ds.dropWhile (· == 0)) = value b ds := by
  induction ds with
  | nil => rfl
  | cons d ds ih =>
    by_cases hd : d = 0
    · rw [hd, List.dropWhile_cons_of_pos (by simp), ih, value_zero_cons]
    · rw [List.dropWhile_cons_of_neg (by simpa using hd)]

/-- A numeral of zero has nothing but zeros. -/
theorem eq_zero_of_value_eq_zero (hb : 0 < b) {ds : List ℕ} (h : value b ds = 0) :
    ∀ d ∈ ds, d = 0 := by
  induction ds with
  | nil => simp
  | cons d ds ih =>
    rw [value_cons] at h
    have hd : d = 0 := by
      have : d * b ^ ds.length = 0 := by omega
      exact (Nat.mul_eq_zero.1 this).resolve_right (Nat.pow_pos hb).ne'
    intro e he
    rcases List.mem_cons.1 he with rfl | he
    · exact hd
    · exact ih (by omega) e he

/-- Nothing is left of a numeral of zero without its leading zeros. -/
theorem dropWhile_zero_of_value_eq_zero (hb : 0 < b) {ds : List ℕ} (h : value b ds = 0) :
    ds.dropWhile (· == 0) = [] :=
  List.dropWhile_eq_nil_iff.2 fun d hd => by simpa using eq_zero_of_value_eq_zero hb h d hd

/-! ## Numerals of any length -/

/-- The shortest numeral of `n` in base `b`. -/
def numeral (b n : ℕ) : List ℕ := if n = 0 then [0] else (b.digits n).reverse

@[simp] theorem numeral_zero : numeral b 0 = [0] := rfl

theorem numeral_of_ne_zero {n : ℕ} (hn : n ≠ 0) : numeral b n = (b.digits n).reverse := if_neg hn

theorem numeral_ne_nil (n : ℕ) : numeral b n ≠ [] := by
  by_cases hn : n = 0
  · simp [hn]
  · rw [numeral_of_ne_zero hn, Ne, List.reverse_eq_nil_iff, Nat.digits_eq_nil_iff_eq_zero]
    exact hn

@[simp] theorem value_numeral (n : ℕ) : value b (numeral b n) = n := by
  by_cases hn : n = 0
  · simp [hn]
  · rw [numeral_of_ne_zero hn, value, List.reverse_reverse, Nat.ofDigits_digits]

theorem lt_of_mem_numeral (hb : 1 < b) {n d : ℕ} (hd : d ∈ numeral b n) : d < b := by
  by_cases hn : n = 0
  · simp only [hn, numeral_zero, List.mem_singleton] at hd
    omega
  · rw [numeral_of_ne_zero hn, List.mem_reverse] at hd
    exact Nat.digits_lt_base hb hd

/-- The numeral of a number that is not zero does not begin with a zero. -/
theorem head_numeral_ne_zero {n : ℕ} (hn : n ≠ 0) :
    (numeral b n).head (numeral_ne_nil n) ≠ 0 := by
  simp only [numeral_of_ne_zero hn, List.head_reverse]
  exact Nat.getLast_digit_ne_zero b hn

theorem length_numeral_le {n k : ℕ} (hb : 1 < b) (hk : 0 < k) (hn : n < b ^ k) :
    (numeral b n).length ≤ k := by
  by_cases h0 : n = 0
  · rw [h0, numeral_zero]
    exact hk
  · rw [numeral_of_ne_zero h0, List.length_reverse]
    exact (Nat.digits_length_le_iff hb n).2 hn

/-! ## Numerals of a fixed length -/

/-- The last `w` digits of `n` in base `b`. -/
def fixed (b : ℕ) : ℕ → ℕ → List ℕ
  | 0, _ => []
  | w + 1, n => fixed b w (n / b) ++ [n % b]

@[simp] theorem length_fixed (w n : ℕ) : (fixed b w n).length = w := by
  induction w generalizing n with
  | zero => rfl
  | succ w ih => rw [fixed, List.length_append, ih, List.length_singleton]

theorem lt_of_mem_fixed (hb : 0 < b) {w n d : ℕ} (hd : d ∈ fixed b w n) : d < b := by
  induction w generalizing n with
  | zero => simp [fixed] at hd
  | succ w ih =>
    rw [fixed, List.mem_append, List.mem_singleton] at hd
    rcases hd with hd | rfl
    · exact ih hd
    · exact Nat.mod_lt _ hb

theorem value_fixed {w n : ℕ} (hn : n < b ^ w) : value b (fixed b w n) = n := by
  induction w generalizing n with
  | zero => simp at hn; simp [fixed, hn]
  | succ w ih =>
    have : n / b < b ^ w := Nat.div_lt_of_lt_mul (by rwa [← Nat.pow_succ'])
    rw [fixed, value_append, ih this, value_singleton, List.length_singleton, pow_one,
      Nat.mul_comm, Nat.div_add_mod]

/-- Numerals of one length are determined by their values. -/
theorem fixed_value (hb : 0 < b) {ds : List ℕ} (hlt : ∀ d ∈ ds, d < b) :
    fixed b ds.length (value b ds) = ds := by
  induction ds using List.reverseRecOn with
  | nil => rfl
  | append_singleton ds d ih =>
    have hd : d < b := hlt d (by simp)
    have hdiv : (value b ds * b + d) / b = value b ds := by
      rw [Nat.mul_comm, Nat.mul_add_div hb, Nat.div_eq_of_lt hd, Nat.add_zero]
    have hmod : (value b ds * b + d) % b = d := by
      rw [Nat.mul_comm, Nat.mul_add_mod, Nat.mod_eq_of_lt hd]
    rw [List.length_append, List.length_singleton, fixed, value_append, value_singleton,
      List.length_singleton, pow_one, hdiv, hmod, ih fun e he => hlt e (by simp [he])]

/-- The shortest numeral, filled up with zeros. -/
theorem replicate_append_numeral (hb : 1 < b) {w n : ℕ} (hw : 0 < w) (hn : n < b ^ w) :
    List.replicate (w - (numeral b n).length) 0 ++ numeral b n = fixed b w n := by
  have hlen := length_numeral_le hb hw hn
  have hlt : ∀ d ∈ List.replicate (w - (numeral b n).length) 0 ++ numeral b n, d < b := by
    intro d hd
    rcases List.mem_append.1 hd with hd | hd
    · rw [List.eq_of_mem_replicate hd]; omega
    · exact lt_of_mem_numeral hb hd
  have := fixed_value (by omega) hlt
  rwa [value_replicate_zero_append, value_numeral, List.length_append, List.length_replicate,
    Nat.sub_add_cancel hlen, eq_comm] at this

/-! ## Long division -/

/-- Divides the digits `vs` in base `B` by `d`, the remainder of the digits
    before them being `carry`: the digits of the quotient and the remainder. -/
def longDiv (B d : ℕ) : ℕ → List ℕ → List ℕ × ℕ
  | carry, [] => ([], carry)
  | carry, v :: vs =>
    let total := carry * B + v
    let rest := longDiv B d (total % d) vs
    (total / d :: rest.1, rest.2)

variable {B d : ℕ}

@[simp] theorem length_longDiv (carry : ℕ) (vs : List ℕ) :
    (longDiv B d carry vs).1.length = vs.length := by
  induction vs generalizing carry with
  | nil => rfl
  | cons v vs ih => simp [longDiv, ih]

theorem longDiv_snd_lt (hd : 0 < d) {carry : ℕ} (hc : carry < d) (vs : List ℕ) :
    (longDiv B d carry vs).2 < d := by
  induction vs generalizing carry with
  | nil => exact hc
  | cons v vs ih => exact ih (Nat.mod_lt _ hd)

/-- Quotient and remainder make up the number divided. -/
theorem value_longDiv (carry : ℕ) (vs : List ℕ) :
    value B (longDiv B d carry vs).1 * d + (longDiv B d carry vs).2 =
      carry * B ^ vs.length + value B vs := by
  induction vs generalizing carry with
  | nil => simp [longDiv]
  | cons v vs ih =>
    have hih := ih ((carry * B + v) % d)
    have hdm := Nat.div_add_mod (carry * B + v) d
    simp only [longDiv, value_cons, length_longDiv, List.length_cons, pow_succ]
    calc ((carry * B + v) / d * B ^ vs.length +
              value B (longDiv B d ((carry * B + v) % d) vs).1) * d +
            (longDiv B d ((carry * B + v) % d) vs).2
        = (carry * B + v) / d * B ^ vs.length * d +
            (value B (longDiv B d ((carry * B + v) % d) vs).1 * d +
              (longDiv B d ((carry * B + v) % d) vs).2) := by ring
      _ = (d * ((carry * B + v) / d) + (carry * B + v) % d) * B ^ vs.length + value B vs := by
            rw [hih]; ring
      _ = carry * (B ^ vs.length * B) + (v * B ^ vs.length + value B vs) := by rw [hdm]; ring

theorem value_longDiv_fst (hd : 0 < d) (vs : List ℕ) :
    value B (longDiv B d 0 vs).1 = value B vs / d := by
  have h := value_longDiv (B := B) (d := d) 0 vs
  have hlt := longDiv_snd_lt (B := B) hd hd vs
  rw [Nat.zero_mul, Nat.zero_add] at h
  rw [← h, Nat.mul_comm, Nat.mul_add_div hd, Nat.div_eq_of_lt hlt, Nat.add_zero]

theorem longDiv_snd (hd : 0 < d) (vs : List ℕ) : (longDiv B d 0 vs).2 = value B vs % d := by
  have h := value_longDiv (B := B) (d := d) 0 vs
  have hlt := longDiv_snd_lt (B := B) hd hd vs
  rw [Nat.zero_mul, Nat.zero_add] at h
  rw [← h, Nat.mul_comm, Nat.mul_add_mod, Nat.mod_eq_of_lt hlt]

/-- The numbers a long division divides: every digit with the remainder before it. -/
def totals (B d : ℕ) : ℕ → List ℕ → List ℕ
  | _, [] => []
  | carry, v :: vs => (carry * B + v) :: totals B d ((carry * B + v) % d) vs

/-- The digits of the quotient are the quotients of the totals. -/
theorem longDiv_fst_eq_map (carry : ℕ) (vs : List ℕ) :
    (longDiv B d carry vs).1 = (totals B d carry vs).map (· / d) := by
  induction vs generalizing carry with
  | nil => rfl
  | cons v vs ih => rw [totals, List.map_cons, ← ih, longDiv]

/-- The divisor and the base bound the totals. -/
theorem lt_of_mem_totals (hd : 0 < d) {carry : ℕ} (hc : carry < d) {vs : List ℕ}
    (hvs : ∀ v ∈ vs, v < B) {t : ℕ} (ht : t ∈ totals B d carry vs) : t < d * B := by
  induction vs generalizing carry with
  | nil => simp [totals] at ht
  | cons v vs ih =>
    rcases List.mem_cons.1 ht with rfl | ht
    · have hv : v < B := hvs v List.mem_cons_self
      calc carry * B + v < carry * B + B := by omega
        _ = (carry + 1) * B := by ring
        _ ≤ d * B := Nat.mul_le_mul_right B hc
    · exact ih (Nat.mod_lt _ hd) (fun v' hv' => hvs v' (List.mem_cons_of_mem _ hv')) ht

/-- A quotient has digits of the base again. -/
theorem lt_of_mem_longDiv (hd : 0 < d) {carry : ℕ} (hc : carry < d) {vs : List ℕ}
    (hvs : ∀ v ∈ vs, v < B) {q : ℕ} (hq : q ∈ (longDiv B d carry vs).1) : q < B := by
  rw [longDiv_fst_eq_map] at hq
  obtain ⟨t, ht, rfl⟩ := List.mem_map.1 hq
  exact Nat.div_lt_of_lt_mul (lt_of_mem_totals hd hc hvs ht)

end Radix
