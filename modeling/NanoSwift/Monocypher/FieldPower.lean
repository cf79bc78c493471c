import NanoSwift.Monocypher.FieldBytes
import Mathlib.NumberTheory.LegendreSymbol.Basic

/-!
# Powers of numbers modulo 2^255 - 19

Inverses and roots are powers: `fe_invert` raises to `p - 2`, and `fe_pow22523`, on which it
rests, to `(p - 5) / 8`.

`invsqrt` finds the inverse of a root from the latter. It says whether there is one; where there
is none, it gives a root of `sqrt(-1)` times the inverse, and zero for zero (`invsqrt_spec`).
-/

namespace MonocypherC

open NanoSwift (Bytes)

/-! ## Definitions -/

def fe_pow22523 (z : fe) : fe :=
  let t0 := fe_sq z
  let t1 := fe_sq t0
  let t1 := fe_sq t1
  let t1 := fe_mul z t1
  let t0 := fe_mul t0 t1
  let t0 := fe_sq t0
  let t0 := fe_mul t1 t0
  let t1 := fe_sq^[5] t0
  let t0 := fe_mul t1 t0
  let t1 := fe_sq^[10] t0
  let t1 := fe_mul t1 t0
  let t2 := fe_sq^[20] t1
  let t1 := fe_mul t2 t1
  let t1 := fe_sq^[10] t1
  let t0 := fe_mul t1 t0
  let t1 := fe_sq^[50] t0
  let t1 := fe_mul t1 t0
  let t2 := fe_sq^[100] t1
  let t1 := fe_mul t2 t1
  let t1 := fe_sq^[50] t1
  let t0 := fe_mul t1 t0
  let t0 := fe_sq^[2] t0
  fe_mul t0 z

def fe_invert (z : fe) : fe :=
  let tmp := fe_pow22523 z
  let tmp := fe_sq tmp
  let tmp := fe_sq tmp
  let tmp := fe_mul tmp z
  let tmp := fe_sq tmp
  fe_mul tmp z

/-- The bits of either of two words. -/
def either (x y : ℤ) : ℤ := (Int32.ofInt x ||| Int32.ofInt y).toInt

/-- The inverse of a root, and whether there is one. -/
def invsqrt (x : fe) : fe × ℤ :=
  let isr := fe_pow22523 x
  let quartic := fe_sq isr
  let quartic := fe_mul quartic x
  let check := fe_1
  let p1 := fe_isequal quartic check
  let check := fe_neg check
  let m1 := fe_isequal quartic check
  let check := fe_neg sqrtm1
  let ms := fe_isequal quartic check
  let check := fe_mul isr sqrtm1
  (fe_ccopy isr check (either m1 ms), either p1 m1)

/-! ## Powers -/

section Powers

variable {f g : fe} {x : F25519} {a b : ℕ}

theorem holds_mul_pow (hf : Holds f 3 (x ^ a)) (hg : Holds g 3 (x ^ b)) :
    Holds (fe_mul f g) 3 (x ^ (a + b)) := by
  rw [pow_add]
  exact (holds_mul hf hg).mono (by decide)

theorem holds_sq_pow (hf : Holds f 3 (x ^ a)) (n : ℕ) :
    Holds (fe_sq^[n] f) 3 (x ^ (a * 2 ^ n)) := by
  induction n with
  | zero => simpa using hf
  | succ n ih =>
    rw [Function.iterate_succ_apply', pow_succ, ← mul_assoc, pow_mul]
    exact (holds_sq ih).mono (by decide)

theorem holds_pow22523 {z : fe} (hz : Holds z 3 x) :
    Holds (fe_pow22523 z) 1 (x ^ (2 ^ 252 - 3)) := by
  have hz : Holds z 3 (x ^ 1) := by rwa [pow_one]
  have h2 := holds_sq_pow hz 1
  have h9 := holds_mul_pow hz (holds_sq_pow h2 2)
  have h11 := holds_mul_pow h2 h9
  have h31 := holds_mul_pow h9 (holds_sq_pow h11 1)
  have h10 := holds_mul_pow (holds_sq_pow h31 5) h31
  have h20 := holds_mul_pow (holds_sq_pow h10 10) h10
  have h40 := holds_mul_pow (holds_sq_pow h20 20) h20
  have h50 := holds_mul_pow (holds_sq_pow h40 10) h10
  have h100 := holds_mul_pow (holds_sq_pow h50 50) h50
  have h200 := holds_mul_pow (holds_sq_pow h100 100) h100
  have h250 := holds_mul_pow (holds_sq_pow h200 50) h50
  have h252 := holds_sq_pow h250 2
  rw [show 2 ^ 252 - 3 = _ + 1 from rfl, pow_add]
  exact holds_mul h252 hz

/-- The exponent of an inverse. -/
theorem pow_prime_sub_two (x : F25519) : x ^ (p25519 - 2) = x⁻¹ := by
  have hp : p25519 - 2 ≠ 0 := by decide +kernel
  rcases eq_or_ne x 0 with rfl | hx
  · rw [zero_pow hp, inv_zero]
  · refine eq_inv_of_mul_eq_one_left ?_
    have hpred : p25519 - 2 + 1 = p25519 - 1 := by decide +kernel
    rw [← pow_succ, hpred, ZMod.pow_card_sub_one_eq_one hx]

theorem holds_invert {z : fe} (hz : Holds z 3 x) : Holds (fe_invert z) 1 x⁻¹ := by
  have hpow := (holds_pow22523 hz).mono (b := 3) (by decide)
  have hz : Holds z 3 (x ^ 1) := by rwa [pow_one]
  have hsq := holds_sq_pow (holds_mul_pow (holds_sq_pow hpow 2) hz) 1
  have hexp : p25519 - 2 = ((2 ^ 252 - 3) * 2 ^ 2 + 1) * 2 ^ 1 + 1 := by decide +kernel
  rw [← pow_prime_sub_two, hexp, pow_add]
  exact holds_mul hsq hz

end Powers

/-! ## Roots -/

/-- A root of `-1`. -/
def rootM1 : F25519 := eval sqrtm1

theorem holds_sqrtm1 : Holds sqrtm1 1 rootM1 := ⟨by decide, rfl⟩

/-- An integer is zero modulo the prime if its remainder is. -/
theorem intCast_eq_of_emod {a b : ℤ} (h : a % p25519 = b % p25519) :
    (a : F25519) = (b : F25519) := (ZMod.intCast_eq_intCast_iff' _ _ _).2 h

theorem rootM1_sq : rootM1 ^ 2 = -1 := by
  rw [rootM1, eval_eq]
  have hmod := intCast_eq_of_emod (a := (sqrtm1[0] + 2 ^ 26 * sqrtm1[1] + 2 ^ 51 * sqrtm1[2] +
    2 ^ 77 * sqrtm1[3] + 2 ^ 102 * sqrtm1[4] + 2 ^ 128 * sqrtm1[5] + 2 ^ 153 * sqrtm1[6] +
    2 ^ 179 * sqrtm1[7] + 2 ^ 204 * sqrtm1[8] + 2 ^ 230 * sqrtm1[9]) ^ 2) (b := -1)
    (by decide +kernel)
  rw [Int.cast_pow] at hmod
  exact hmod.trans (by norm_num)

theorem one_ne_neg_one : (1 : F25519) ≠ -1 := by
  have hmod : ¬ (1 : ℤ) % p25519 = (-1) % p25519 := by decide +kernel
  intro h
  refine hmod ((ZMod.intCast_eq_intCast_iff' _ _ _).1 ?_)
  exact_mod_cast h

theorem either_eq {x y : ℤ} (hx : x = 0 ∨ x = 1) (hy : y = 0 ∨ y = 1) :
    either x y = if x = 1 ∨ y = 1 then 1 else 0 := by
  rcases hx with rfl | rfl <;> rcases hy with rfl | rfl <;> rfl

/-- The power that tells squares from other numbers. -/
theorem quartic_sq {x : F25519} (hx : x ≠ 0) :
    ((x ^ (2 ^ 252 - 3)) ^ 2 * x) ^ 2 = 1 ∧ IsSquare x ∨
      ((x ^ (2 ^ 252 - 3)) ^ 2 * x) ^ 2 = -1 ∧ ¬ IsSquare x := by
  have hexp : ((2 ^ 252 - 3) * 2 + 1) * 2 = p25519 / 2 := by decide +kernel
  have hpow : ((x ^ (2 ^ 252 - 3)) ^ 2 * x) ^ 2 = x ^ (p25519 / 2) := by
    rw [← pow_mul, ← pow_succ, ← pow_mul, hexp]
  rw [hpow, ZMod.euler_criterion p25519 hx]
  rcases ZMod.pow_div_two_eq_neg_one_or_one p25519 hx with h | h
  · exact .inl ⟨h, h⟩
  · exact .inr ⟨h, fun h' => one_ne_neg_one (h'.symm.trans h)⟩

theorem ite_eq_one_iff {P : Prop} [Decidable P] : (if P then (1 : ℤ) else 0) = 1 ↔ P := by
  split_ifs with h <;> simp [h]

theorem ite_zero_or_one {P : Prop} [Decidable P] :
    (if P then (1 : ℤ) else 0) = 0 ∨ (if P then (1 : ℤ) else 0) = 1 := by
  split_ifs <;> simp

/-- The code of `invsqrt`, in terms of what the limbs denote. -/
theorem holds_invsqrt {x : fe} {v q : F25519} (hx : Holds x 3 v)
    (hq : (v ^ (2 ^ 252 - 3)) ^ 2 * v = q) :
    Holds (invsqrt x).1 1
        (if q = -1 ∨ q = -rootM1 then v ^ (2 ^ 252 - 3) * rootM1 else v ^ (2 ^ 252 - 3)) ∧
      (invsqrt x).2 = if q = 1 ∨ q = -1 then 1 else 0 := by
  have hisr := holds_pow22523 hx
  have hisr' := hisr.mono (b := 3) (by decide)
  have hquartic := holds_mul ((holds_sq hisr').mono (b := 3) (by decide)) hx
  have hm1 := holds_neg holds_1 (by decide)
  have hms := holds_neg holds_sqrtm1 (by decide)
  have hcheck := holds_mul hisr' (holds_sqrtm1.mono (b := 3) (by decide))
  rw [hq] at hquartic
  rw [invsqrt]
  simp only [fe_isequal_eq hquartic.abs_le holds_1.abs_le, fe_isequal_eq hquartic.abs_le hm1.abs_le,
    fe_isequal_eq hquartic.abs_le hms.abs_le, hquartic.eval_eq, holds_1.eval_eq, hm1.eval_eq,
    hms.eval_eq, either_eq ite_zero_or_one ite_zero_or_one, ite_eq_one_iff, and_true]
  have hcopy := holds_ccopy hisr hcheck (by decide)
    (ite_zero_or_one (P := q = -1 ∨ q = -rootM1))
  simpa only [ite_eq_one_iff] using hcopy

theorem rootM1_ne_zero : rootM1 ≠ 0 := by
  intro h
  have hsq := rootM1_sq
  rw [h, zero_pow (by decide), eq_comm, neg_eq_zero] at hsq
  exact one_ne_zero hsq

/-- What `invsqrt` finds: the inverse of a root of a square, and a root of `sqrt(-1)` times the
    inverse of another number. -/
theorem invsqrt_spec {x : fe} {v : F25519} (hx : Holds x 3 v) :
    ∃ r, Holds (invsqrt x).1 1 r ∧ ((invsqrt x).2 = 0 ∨ (invsqrt x).2 = 1) ∧
      ((invsqrt x).2 = 1 ↔ v ≠ 0 ∧ IsSquare v) ∧ (v = 0 → r = 0) ∧
      (v ≠ 0 → IsSquare v → r ^ 2 * v = 1) ∧ (¬ IsSquare v → r ^ 2 * v = rootM1) := by
  generalize hq : (v ^ (2 ^ 252 - 3)) ^ 2 * v = q
  obtain ⟨hisr, hret⟩ := holds_invsqrt hx hq
  refine ⟨_, hisr, hret ▸ ite_zero_or_one, ?_⟩
  rw [hret, ite_eq_one_iff]
  rcases eq_or_ne v 0 with rfl | hv
  · -- Zero is none of the roots of one.
    rw [mul_zero] at hq
    subst hq
    have hne : ¬ ((0 : F25519) = -1 ∨ (0 : F25519) = -rootM1) := by
      simp [rootM1_ne_zero, eq_comm (a := (0 : F25519))]
    rw [if_neg hne, zero_pow (by decide)]
    simp [eq_comm (a := (0 : F25519))]
  have hroot : (v ^ (2 ^ 252 - 3) * rootM1) ^ 2 * v = -q := by
    rw [mul_pow, rootM1_sq, ← hq]
    ring
  have hone : rootM1 ≠ 1 := fun h => one_ne_neg_one (by rw [← rootM1_sq, h, one_pow])
  have hneg : rootM1 ≠ -1 := fun h => one_ne_neg_one (by rw [← rootM1_sq, h, neg_sq, one_pow])
  rcases quartic_sq hv with ⟨hsq, hsquare⟩ | ⟨hsq, hsquare⟩
  · rw [hq, sq_eq_one_iff] at hsq
    refine ⟨iff_of_true hsq ⟨hv, hsquare⟩, fun h => absurd h hv, fun _ _ => ?_,
      fun h => absurd hsquare h⟩
    rcases hsq with rfl | rfl
    · rw [if_neg, hq]
      rintro (h | h)
      · exact one_ne_neg_one h
      · exact hneg (neg_eq_iff_eq_neg.1 h.symm)
    · rw [if_pos (.inl rfl), hroot, neg_neg]
  · -- The power is a root of `-1` then, which is neither `1` nor `-1`.
    rw [hq, ← rootM1_sq, sq_eq_sq_iff_eq_or_eq_neg] at hsq
    have hunit : ¬ (q = 1 ∨ q = -1) := by
      rcases hsq with rfl | rfl
      · simp [hone, hneg]
      · simp [neg_eq_iff_eq_neg, hone, hneg]
    refine ⟨iff_of_false hunit fun h => hsquare h.2, fun h => absurd h hv,
      fun _ h => absurd h hsquare, fun _ => ?_⟩
    rcases hsq with rfl | rfl
    · rw [if_neg, hq]
      rintro (h | h)
      · exact hneg h
      · exact one_ne_neg_one (mul_left_cancel₀ rootM1_ne_zero (by rwa [mul_one, mul_neg_one]))
    · rw [if_pos (.inr rfl), hroot, neg_neg]

/-- The inverse in bytes, for any bytes read: zero is its own. -/
theorem invert_bytes {s : Bytes} (hs : s.length = 32) :
    leValue (fe_tobytes (fe_invert (fe_frombytes s))) =
        ((leValue s % 2 ^ 255 : ℕ) : F25519)⁻¹.val ∧
      leValue (fe_tobytes (fe_mul (fe_frombytes s) (fe_invert (fe_frombytes s)))) =
        if p25519 ∣ leValue s % 2 ^ 255 then 0 else 1 := by
  have hx := (holds_frombytes hs).mono (b := 3) (by decide)
  have hinv := holds_invert hx
  have hprod := holds_mul hx (hinv.mono (by decide))
  refine ⟨(leValue_tobytes hinv.abs_le).1.trans (by rw [hinv.eval_eq]), ?_⟩
  rw [(leValue_tobytes hprod.abs_le).1, hprod.eval_eq]
  split_ifs with h
  · rw [(ZMod.natCast_eq_zero_iff _ _).2 h, zero_mul, ZMod.val_zero]
  · rw [mul_inv_cancel₀ (mt (ZMod.natCast_eq_zero_iff _ _).1 h)]
    exact ZMod.val_one p25519

theorem invert_bytes_ones :
    leValue (fe_tobytes (fe_invert (fe_frombytes (List.replicate 32 255)))) =
        ((leValue (List.replicate 32 255) % 2 ^ 255 : ℕ) : F25519)⁻¹.val ∧
      leValue (fe_tobytes (fe_mul (fe_frombytes (List.replicate 32 255))
          (fe_invert (fe_frombytes (List.replicate 32 255))))) =
        if p25519 ∣ leValue (List.replicate 32 255) % 2 ^ 255 then 0 else 1 :=
  invert_bytes (s := List.replicate 32 255) (List.length_replicate ..)

end MonocypherC
