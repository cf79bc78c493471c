import Mathlib.Algebra.BigOperators.Intervals
import Mathlib.Tactic

/-!
# Signed digits

The bits of a number, recoded with signs, as ladders of additions and subtractions read them.

* If each bit counts as one or minus one, the bits of `n` denote `2 n - (2 ^ k - 1)`
  (`sum_sign`). A comb takes them by columns (`sum_columns`).
* If each bit counts for the difference from the one below, the bits denote `n` (Booth). So do
  windows of several differences (`tail_window`), and equal bits count nothing.
-/

namespace SignedDigits

/-- Bit `i` of `n`; below the lowest there are zeros. -/
def bit (n : ℕ) (i : ℤ) : ℤ := if i < 0 then 0 else (n / 2 ^ i.toNat % 2 : ℕ)

theorem bit_natCast (n i : ℕ) : bit n i = (n / 2 ^ i % 2 : ℕ) := if_neg (by omega)

theorem bit_of_neg (n : ℕ) {i : ℤ} (hi : i < 0) : bit n i = 0 := if_pos hi

theorem bit_eq_zero_or_one (n : ℕ) (i : ℤ) : bit n i = 0 ∨ bit n i = 1 := by
  rw [bit]
  split_ifs
  · exact .inl rfl
  · have hmod := Nat.mod_two_eq_zero_or_one (n / 2 ^ i.toNat)
    omega

theorem bit_eq_zero_of_lt {n i : ℕ} (h : n < 2 ^ i) : bit n i = 0 := by
  rw [bit_natCast, Nat.div_eq_of_lt h]
  rfl

/-! ## Ones and minus ones -/

/-- What a bit counts if none counts nothing. -/
def sign (b : ℤ) : ℤ := 2 * b - 1

theorem sum_bit (n k : ℕ) : ∑ i ∈ Finset.range k, 2 ^ i * bit n i = (n % 2 ^ k : ℕ) := by
  induction k with
  | zero => simp [Nat.mod_one]
  | succ k ih =>
    rw [Finset.sum_range_succ, ih, bit_natCast, Nat.mod_pow_succ, Nat.cast_add, Nat.cast_mul,
      Nat.cast_pow, Nat.cast_ofNat]

theorem sum_sign {n k : ℕ} (hn : n < 2 ^ k) :
    ∑ i ∈ Finset.range k, 2 ^ i * sign (bit n i) = 2 * n - (2 ^ k - 1) := by
  have hones : ∑ i ∈ Finset.range k, (2 : ℤ) ^ i = 2 ^ k - 1 := by
    have h := geom_sum_mul (2 : ℤ) k
    linarith
  have hbits := sum_bit n k
  rw [Nat.mod_eq_of_lt hn] at hbits
  calc ∑ i ∈ Finset.range k, 2 ^ i * sign (bit n i)
      = 2 * ∑ i ∈ Finset.range k, 2 ^ i * bit n i - ∑ i ∈ Finset.range k, (2 : ℤ) ^ i := by
        rw [Finset.mul_sum, ← Finset.sum_sub_distrib]
        exact Finset.sum_congr rfl fun i _ => by rw [sign]; ring
    _ = 2 * n - (2 ^ k - 1) := by rw [hbits, hones]

/-- A sum by columns: those of `r` consecutive terms each. -/
theorem sum_columns {M : Type*} [AddCommMonoid M] (f : ℕ → M) (r c : ℕ) :
    ∑ i ∈ Finset.range r, ∑ j ∈ Finset.range c, f (i + r * j) = ∑ k ∈ Finset.range (r * c), f k := by
  induction c with
  | zero => simp
  | succ c ih =>
    rw [mul_add_one, Finset.sum_range_add, ← ih, ← Finset.sum_add_distrib]
    refine Finset.sum_congr rfl fun i _ => ?_
    rw [Finset.sum_range_succ, Nat.add_comm (r * c)]

/-! ## Differences -/

/-- What the differences from bit `k` on denote. -/
def tail (n k : ℕ) : ℤ := 2 ^ k * ((n / 2 ^ k : ℕ) + bit n (k - 1))

theorem tail_zero (n : ℕ) : tail n 0 = n := by
  simp [tail, bit_of_neg]

theorem tail_eq_zero {n k : ℕ} (h : n < 2 ^ k) : tail n (k + 1) = 0 := by
  rw [tail, Nat.cast_succ, add_sub_cancel_right, bit_eq_zero_of_lt h,
    Nat.div_eq_of_lt (h.trans_le (Nat.pow_le_pow_right (by decide) (Nat.le_succ k)))]
  rfl

theorem tail_succ (n k : ℕ) : tail n k = tail n (k + 1) + 2 ^ k * (bit n (k - 1) - bit n k) := by
  have hdiv : n / 2 ^ k = 2 * (n / 2 ^ (k + 1)) + n / 2 ^ k % 2 := by
    rw [pow_succ, ← Nat.div_div_eq_div_mul]
    omega
  have hbit := bit_natCast n k
  have hcast : ((n / 2 ^ k : ℕ) : ℤ) = 2 * (n / 2 ^ (k + 1) : ℕ) + bit n k := by
    rw [hbit]
    exact_mod_cast hdiv
  rw [tail, tail, Nat.cast_succ, add_sub_cancel_right, hcast]
  ring

/-- The differences at `w` bits from `k` on. -/
def window (n w : ℕ) (k : ℤ) : ℤ :=
  -(bit n (k + w - 1) * 2 ^ (w - 1)) +
    ∑ j ∈ Finset.range (w - 1), bit n (k + j) * 2 ^ j + bit n (k - 1)

theorem tail_window (n k : ℕ) {w : ℕ} (hw : 0 < w) :
    tail n k = tail n (k + w) + 2 ^ k * window n w k := by
  obtain ⟨w, rfl⟩ := Nat.exists_eq_add_one_of_ne_zero hw.ne'
  induction w with
  | zero =>
    rw [zero_add, tail_succ, window, Nat.sub_self, Finset.range_zero, Finset.sum_empty, Nat.cast_one,
      add_sub_cancel_right]
    ring
  | succ w ih =>
    rw [ih w.succ_pos, tail_succ n (k + (w + 1)), window, window, Nat.add_assoc k]
    simp only [Nat.add_sub_cancel, Finset.sum_range_succ]
    push_cast
    rw [show (k : ℤ) + (w + 1) - 1 = k + w by ring,
      show (k : ℤ) + (w + 1 + 1) - 1 = k + (w + 1) by ring]
    ring

theorem sum_bit_mem_Icc (n : ℕ) (k : ℤ) (m : ℕ) :
    0 ≤ ∑ j ∈ Finset.range m, bit n (k + j) * 2 ^ j ∧
      ∑ j ∈ Finset.range m, bit n (k + j) * 2 ^ j ≤ 2 ^ m - 1 := by
  induction m with
  | zero => simp
  | succ m ih =>
    have hpow : (0 : ℤ) < 2 ^ m := by positivity
    rw [Finset.sum_range_succ, pow_succ]
    rcases bit_eq_zero_or_one n (k + m) with h | h <;> rw [h] <;> omega

/-- A window whose upper two bits differ counts something. -/
theorem window_ne_zero {n w : ℕ} {k : ℤ} (hw : 0 < w)
    (hne : bit n (k + w - 1) ≠ bit n (k + w - 1 - 1)) :
    window n w k ≠ 0 ∧ |window n w k| ≤ 2 ^ (w - 1) := by
  obtain ⟨w, rfl⟩ := Nat.exists_eq_add_one_of_ne_zero hw.ne'
  have htop := bit_eq_zero_or_one n (k + (w + 1 : ℕ) - 1)
  have hlow := bit_eq_zero_or_one n (k - 1)
  rw [window, Nat.add_sub_cancel, abs_le]
  cases w with
  | zero =>
    rw [zero_add, Nat.cast_one, add_sub_cancel_right] at hne htop ⊢
    simp only [Finset.range_zero, Finset.sum_empty, pow_zero]
    omega
  | succ w =>
    obtain ⟨hnonneg, hle⟩ := sum_bit_mem_Icc n k w
    have hpow : (0 : ℤ) < 2 ^ w := by positivity
    have hnext : k + (w + 1 + 1 : ℕ) - 1 - 1 = k + w := by push_cast; ring
    rw [hnext] at hne
    have hbit := bit_eq_zero_or_one n (k + w)
    rw [Finset.sum_range_succ, pow_succ]
    rcases htop with h | h <;> rcases hbit with h' | h' <;> rw [h, h'] at hne ⊢ <;> omega

end SignedDigits
