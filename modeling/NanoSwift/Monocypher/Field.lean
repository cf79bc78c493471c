import NanoSwift.Monocypher.Primes
import Mathlib.Algebra.Field.ZMod
import Mathlib.Algebra.BigOperators.Fin

/-!
# Numbers modulo 2^255 - 19

The coordinates of points, as Monocypher holds them: ten limbs of 26 and 25 bits in turn,
which have signs and may be a bit larger than that. Sums are taken limb by limb; products
are carried, so that their limbs are small again (`FE_CARRY`).

Limbs are computed in words of 32 bits with signs, products in words of 64 bits. The words
wrap here (`i32`, `i64`); a limb array `Holds` a number with limbs up to `m` times the size
of those carried, and the rules for the operations say which `m` they accept, so that no word
overflows.
-/

namespace MonocypherC

open NanoSwift (Bytes)

/-- The field of the coordinates. -/
abbrev F25519 := ZMod p25519

instance : Fact p25519.Prime := ⟨prime_p25519⟩

/-! ## Words -/

/-- A word of 32 bits with a sign. -/
def i32 (x : ℤ) : ℤ := x.bmod (2 ^ 32)

/-- A word of 64 bits with a sign. -/
def i64 (x : ℤ) : ℤ := x.bmod (2 ^ 64)

theorem i32_eq {x : ℤ} (h : |x| < 2 ^ 31) : i32 x = x := by
  obtain ⟨hlow, hhigh⟩ := abs_lt.1 h
  exact Int.bmod_eq_of_le (by omega) (by omega)

theorem i64_eq {x : ℤ} (h : |x| < 2 ^ 63) : i64 x = x := by
  obtain ⟨hlow, hhigh⟩ := abs_lt.1 h
  exact Int.bmod_eq_of_le (by omega) (by omega)

/-! ## Definitions -/

/-- A number as ten limbs. -/
abbrev fe := Vector ℤ 10

/-- A root of `-1`. -/
def sqrtm1 : fe :=
  #v[-32595792, -7943725, 9377950, 3500415, 12389472, -272473, -25146209, -2005654, 326686,
    11406482]

/-- `-121665 / 121666`. -/
def d : fe :=
  #v[-10913610, 13857413, -15372611, 6949391, 114729, -8787816, -6275908, -3247719, -18696448,
    -12055116]

/-- Twice that. -/
def D2 : fe :=
  #v[-21827239, -5839606, -30745221, 13898782, 229458, 15978800, -12551817, -6495438, 29715968,
    9444199]

def fe_0 : fe := Vector.replicate 10 0

def fe_1 : fe := Vector.replicate 10 0 |>.set 0 1

def fe_neg (f : fe) : fe := f.map fun x => i32 (-x)

def fe_add (f g : fe) : fe := f.zipWith (fun x y => i32 (x + y)) g

def fe_sub (f g : fe) : fe := f.zipWith (fun x y => i32 (x - y)) g

/-- Overwrites `f` by `g` if `b` is one, and not if it is zero. -/
def fe_ccopy (f g : fe) (b : ℤ) : fe :=
  let mask := Int32.ofInt (-b)
  f.zipWith (fun f g =>
    let x := (Int32.ofInt f ^^^ Int32.ofInt g) &&& mask
    (Int32.ofInt f ^^^ x).toInt) g

/-- Swaps `f` and `g` if `b` is one, and not if it is zero. -/
def fe_cswap (f g : fe) (b : ℤ) : fe × fe :=
  let mask := Int32.ofInt (-b)
  (f.zipWith (fun f g =>
      let x := (Int32.ofInt f ^^^ Int32.ofInt g) &&& mask
      (Int32.ofInt f ^^^ x).toInt) g,
    f.zipWith (fun f g =>
      let x := (Int32.ofInt f ^^^ Int32.ofInt g) &&& mask
      (Int32.ofInt g ^^^ x).toInt) g)

theorem limbIndex_lt (n : ℕ) : n % 10 < 10 := Nat.mod_lt _ (by decide)

def limbIndex (n : ℕ) : Fin 10 := ⟨n % 10, limbIndex_lt n⟩

/-- Limb `n`. -/
def limb (f : fe) (n : ℕ) : ℤ := f[limbIndex n]

/-- A step of a carry: from limb `i`, which has `k` bits, to limb `j`, where it counts `m`
    times. -/
structure CarryStep where
  i : Fin 10
  k : ℕ
  j : Fin 10
  m : ℕ

def CarryStep.of (i k j m : ℕ) : CarryStep := ⟨limbIndex i, k, limbIndex j, m⟩

/-- Carries so much that the limb is between `-2 ^ (k - 1)` and `2 ^ (k - 1)`. -/
def carry (t : Vector ℤ 10) (s : CarryStep) : Vector ℤ 10 :=
  let c := i64 (t[s.i] + 2 ^ (s.k - 1)) >>> s.k
  let t := t.set s.i (i64 (t[s.i] - i64 (c * 2 ^ s.k)))
  t.set s.j (i64 (t[s.j] + i64 (c * s.m)))

/-- The steps of a carry. Two chains go side by side. -/
def carries : List CarryStep :=
  [.of 0 26 1 1, .of 4 26 5 1, .of 1 25 2 1, .of 5 25 6 1, .of 2 26 3 1, .of 6 26 7 1,
    .of 3 25 4 1, .of 7 25 8 1, .of 4 26 5 1, .of 8 26 9 1, .of 9 25 0 19, .of 0 26 1 1]

def FE_CARRY (t : Vector ℤ 10) : fe := (carries.foldl carry t).map i32

def fe_mul_small (f : fe) (g : ℤ) : fe := FE_CARRY (f.map fun x => i64 (x * g))

def fe_mul (f g : fe) : fe :=
  let F1 := i32 (f[1] * 2)
  let F3 := i32 (f[3] * 2)
  let F5 := i32 (f[5] * 2)
  let F7 := i32 (f[7] * 2)
  let F9 := i32 (f[9] * 2)
  let G1 := i32 (g[1] * 19)
  let G2 := i32 (g[2] * 19)
  let G3 := i32 (g[3] * 19)
  let G4 := i32 (g[4] * 19)
  let G5 := i32 (g[5] * 19)
  let G6 := i32 (g[6] * 19)
  let G7 := i32 (g[7] * 19)
  let G8 := i32 (g[8] * 19)
  let G9 := i32 (g[9] * 19)
  FE_CARRY #v[
    i64 (f[0] * g[0] + F1 * G9 + f[2] * G8 + F3 * G7 + f[4] * G6
      + F5 * G5 + f[6] * G4 + F7 * G3 + f[8] * G2 + F9 * G1),
    i64 (f[0] * g[1] + f[1] * g[0] + f[2] * G9 + f[3] * G8 + f[4] * G7
      + f[5] * G6 + f[6] * G5 + f[7] * G4 + f[8] * G3 + f[9] * G2),
    i64 (f[0] * g[2] + F1 * g[1] + f[2] * g[0] + F3 * G9 + f[4] * G8
      + F5 * G7 + f[6] * G6 + F7 * G5 + f[8] * G4 + F9 * G3),
    i64 (f[0] * g[3] + f[1] * g[2] + f[2] * g[1] + f[3] * g[0] + f[4] * G9
      + f[5] * G8 + f[6] * G7 + f[7] * G6 + f[8] * G5 + f[9] * G4),
    i64 (f[0] * g[4] + F1 * g[3] + f[2] * g[2] + F3 * g[1] + f[4] * g[0]
      + F5 * G9 + f[6] * G8 + F7 * G7 + f[8] * G6 + F9 * G5),
    i64 (f[0] * g[5] + f[1] * g[4] + f[2] * g[3] + f[3] * g[2] + f[4] * g[1]
      + f[5] * g[0] + f[6] * G9 + f[7] * G8 + f[8] * G7 + f[9] * G6),
    i64 (f[0] * g[6] + F1 * g[5] + f[2] * g[4] + F3 * g[3] + f[4] * g[2]
      + F5 * g[1] + f[6] * g[0] + F7 * G9 + f[8] * G8 + F9 * G7),
    i64 (f[0] * g[7] + f[1] * g[6] + f[2] * g[5] + f[3] * g[4] + f[4] * g[3]
      + f[5] * g[2] + f[6] * g[1] + f[7] * g[0] + f[8] * G9 + f[9] * G8),
    i64 (f[0] * g[8] + F1 * g[7] + f[2] * g[6] + F3 * g[5] + f[4] * g[4]
      + F5 * g[3] + f[6] * g[2] + F7 * g[1] + f[8] * g[0] + F9 * G9),
    i64 (f[0] * g[9] + f[1] * g[8] + f[2] * g[7] + f[3] * g[6] + f[4] * g[5]
      + f[5] * g[4] + f[6] * g[3] + f[7] * g[2] + f[8] * g[1] + f[9] * g[0])]

def fe_sq (f : fe) : fe :=
  let f0_2 := i32 (f[0] * 2)
  let f1_2 := i32 (f[1] * 2)
  let f2_2 := i32 (f[2] * 2)
  let f3_2 := i32 (f[3] * 2)
  let f4_2 := i32 (f[4] * 2)
  let f5_2 := i32 (f[5] * 2)
  let f6_2 := i32 (f[6] * 2)
  let f7_2 := i32 (f[7] * 2)
  let f5_38 := i32 (f[5] * 38)
  let f6_19 := i32 (f[6] * 19)
  let f7_38 := i32 (f[7] * 38)
  let f8_19 := i32 (f[8] * 19)
  let f9_38 := i32 (f[9] * 38)
  FE_CARRY #v[
    i64 (f[0] * f[0] + f1_2 * f9_38 + f2_2 * f8_19
      + f3_2 * f7_38 + f4_2 * f6_19 + f[5] * f5_38),
    i64 (f0_2 * f[1] + f[2] * f9_38 + f3_2 * f8_19
      + f[4] * f7_38 + f5_2 * f6_19),
    i64 (f0_2 * f[2] + f1_2 * f[1] + f3_2 * f9_38
      + f4_2 * f8_19 + f5_2 * f7_38 + f[6] * f6_19),
    i64 (f0_2 * f[3] + f1_2 * f[2] + f[4] * f9_38
      + f5_2 * f8_19 + f[6] * f7_38),
    i64 (f0_2 * f[4] + f1_2 * f3_2 + f[2] * f[2]
      + f5_2 * f9_38 + f6_2 * f8_19 + f[7] * f7_38),
    i64 (f0_2 * f[5] + f1_2 * f[4] + f2_2 * f[3]
      + f[6] * f9_38 + f7_2 * f8_19),
    i64 (f0_2 * f[6] + f1_2 * f5_2 + f2_2 * f[4]
      + f3_2 * f[3] + f7_2 * f9_38 + f[8] * f8_19),
    i64 (f0_2 * f[7] + f1_2 * f[6] + f2_2 * f[5]
      + f3_2 * f[4] + f[8] * f9_38),
    i64 (f0_2 * f[8] + f1_2 * f7_2 + f2_2 * f[6]
      + f3_2 * f5_2 + f[4] * f[4] + f[9] * f9_38),
    i64 (f0_2 * f[9] + f1_2 * f[8] + f2_2 * f[7]
      + f3_2 * f[6] + f[4] * f5_2)]

/-- Twice the square. -/
def fe_sq2 (f : fe) : fe := fe_mul_small (fe_sq f) 2

/-! ## What limbs denote -/

/-- Where limb `i` begins. -/
def exponent (i : Fin 10) : ℕ := (51 * i + 1) / 2

/-- The number that limbs denote. -/
def eval (t : Vector ℤ 10) : F25519 := ∑ i : Fin 10, 2 ^ exponent i * (t[i] : F25519)

/-- The size of a limb that is carried. -/
def unit (i : Fin 10) : ℤ := if i.val % 2 = 0 then 36909875 else 18454937

/-- The limbs of `f` denote `x`, and are at most `m` times the size of those carried. -/
structure Holds (f : fe) (m : ℤ) (x : F25519) : Prop where
  abs_le : ∀ i : Fin 10, |f[i]| ≤ m * unit i
  eval_eq : eval f = x

/-- The limbs of `h` are not larger than those that are carried. -/
def Carried (h : fe) : Prop := ∀ i : Fin 10, |h[i]| ≤ 1 * unit i

instance (h : fe) : Decidable (Carried h) :=
  inferInstanceAs (Decidable (∀ i : Fin 10, |h[i]| ≤ 1 * unit i))

theorem sum_ten {R : Type*} [AddCommMonoid R] (h : Fin 10 → R) : ∑ i, h i =
    h 0 + h 1 + h 2 + h 3 + h 4 + h 5 + h 6 + h 7 + h 8 + h 9 := by
  simp only [Fin.sum_univ_castSucc, Fin.sum_univ_zero, zero_add]
  rfl

/-- The number, written out. -/
theorem eval_eq (t : Vector ℤ 10) : eval t =
    ((t[0] + 2 ^ 26 * t[1] + 2 ^ 51 * t[2] + 2 ^ 77 * t[3] + 2 ^ 102 * t[4] + 2 ^ 128 * t[5] +
      2 ^ 153 * t[6] + 2 ^ 179 * t[7] + 2 ^ 204 * t[8] + 2 ^ 230 * t[9] : ℤ) : F25519) := by
  have hexp : ∀ i : Fin 10, exponent i = [0, 26, 51, 77, 102, 128, 153, 179, 204, 230][i.val] := by
    decide
  rw [eval, sum_ten]
  simp only [hexp, Int.cast_add, Int.cast_mul, Int.cast_pow, Fin.getElem_fin]
  simp

theorem eval_set (t : Vector ℤ 10) (i : Fin 10) (v : ℤ) :
    eval (t.set i v) = eval t + 2 ^ exponent i * (v - t[i] : ℤ) := by
  have hsum : eval (t.set i v) - eval t =
      ∑ j : Fin 10, 2 ^ exponent j * (((t.set i v)[j] - t[j] : ℤ) : F25519) := by
    rw [eval, eval, ← Finset.sum_sub_distrib]
    push_cast
    exact Finset.sum_congr rfl fun j _ => by ring
  rw [Finset.sum_eq_single i] at hsum
  · rw [← sub_eq_iff_eq_add', hsum]
    simp
  · intro j _ hj
    simp [Fin.val_ne_of_ne hj.symm]
  · simp

/-! ## Carrying -/

/-- Bounds of the limbs after a step, of bounds before it. -/
def CarryStep.bound (s : CarryStep) (b : Vector ℤ 10) : Vector ℤ 10 :=
  (b.set s.i (2 ^ (s.k - 1))).set s.j (b[s.j] + (b[s.i] / 2 ^ s.k + 1) * s.m)

/-- Nothing overflows in a step, and what is carried counts right. -/
def CarryStep.Fits (s : CarryStep) (b : Vector ℤ 10) : Prop :=
  s.i ≠ s.j ∧ 0 < s.k ∧ 2 ^ exponent s.i * 2 ^ s.k % p25519 = 2 ^ exponent s.j * s.m % p25519 ∧
    b[s.i] + 2 ^ (s.k - 1) < 2 ^ 63 ∧ b[s.j] + (b[s.i] / 2 ^ s.k + 1) * s.m < 2 ^ 63

instance (s : CarryStep) (b : Vector ℤ 10) : Decidable (s.Fits b) :=
  inferInstanceAs (Decidable (_ ∧ _))

/-- What is carried. -/
theorem abs_carried {x b : ℤ} {k : ℕ} (hx : |x| ≤ b) (hk : 0 < k) :
    |(x + 2 ^ (k - 1)) / 2 ^ k| ≤ b / 2 ^ k + 1 ∧
      |x - (x + 2 ^ (k - 1)) / 2 ^ k * 2 ^ k| ≤ 2 ^ (k - 1) ∧
      |(x + 2 ^ (k - 1)) / 2 ^ k * 2 ^ k| ≤ b + 2 ^ (k - 1) := by
  obtain ⟨k, rfl⟩ := Nat.exists_eq_add_of_lt hk
  obtain ⟨hlow, hhigh⟩ := abs_le.1 hx
  rw [Nat.zero_add, Nat.add_sub_cancel, pow_succ]
  have hpos : (0 : ℤ) < 2 ^ k := by positivity
  generalize (2 : ℤ) ^ k = B at hpos ⊢
  have hdiv := Int.mul_ediv_add_emod (x + B) (B * 2)
  have hmod := Int.emod_nonneg (x + B) (b := B * 2) (by omega)
  have hlt := Int.emod_lt_of_pos (x + B) (b := B * 2) (by omega)
  have hdiv' := Int.mul_ediv_add_emod b (B * 2)
  have hmod' := Int.emod_nonneg b (b := B * 2) (by omega)
  have hlt' := Int.emod_lt_of_pos b (b := B * 2) (by omega)
  generalize (x + B) / (B * 2) = c at *
  generalize b / (B * 2) = q at *
  refine ⟨abs_le.2 ⟨?_, ?_⟩, abs_le.2 ⟨?_, ?_⟩, abs_le.2 ⟨?_, ?_⟩⟩ <;> nlinarith

/-- No word overflows in a step. -/
theorem carry_eq {s : CarryStep} {t b : Vector ℤ 10} (h : s.Fits b)
    (hb : ∀ l : Fin 10, |t[l]| ≤ b[l]) : carry t s =
      (t.set s.i (t[s.i] - (t[s.i] + 2 ^ (s.k - 1)) / 2 ^ s.k * 2 ^ s.k)).set s.j
        (t[s.j] + (t[s.i] + 2 ^ (s.k - 1)) / 2 ^ s.k * s.m) := by
  obtain ⟨hij, hk, -, hbi, hbj⟩ := h
  have hx := hb s.i
  have hy := hb s.j
  obtain ⟨hc, hrest, hmul⟩ := abs_carried hx hk
  have hpos : (0 : ℤ) < 2 ^ (s.k - 1) := by positivity
  have hcm : |(t[s.i] + 2 ^ (s.k - 1)) / 2 ^ s.k * s.m| ≤ (b[s.i] / 2 ^ s.k + 1) * s.m := by
    rw [abs_mul, Nat.abs_cast]
    exact mul_le_mul_of_nonneg_right hc (Int.natCast_nonneg _)
  have hsum : |t[s.i] + 2 ^ (s.k - 1)| < 2 ^ 63 := by
    refine ((abs_add_le _ _).trans (add_le_add_left hx _)).trans_lt ?_
    rwa [abs_of_pos hpos]
  have hadd : |t[s.j] + (t[s.i] + 2 ^ (s.k - 1)) / 2 ^ s.k * s.m| < 2 ^ 63 :=
    ((abs_add_le _ _).trans (add_le_add hy hcm)).trans_lt hbj
  have hget : (t.set s.i (t[s.i] - (t[s.i] + 2 ^ (s.k - 1)) / 2 ^ s.k * 2 ^ s.k))[s.j] = t[s.j] := by
    simp [Fin.val_ne_of_ne hij]
  have hshift : (t[s.i] + 2 ^ (s.k - 1)) >>> s.k = (t[s.i] + 2 ^ (s.k - 1)) / 2 ^ s.k := by
    rw [Int.shiftRight_eq_div_pow]
    norm_cast
  have hbi0 := (abs_nonneg _).trans hx
  have hbj0 := (abs_nonneg _).trans hy
  rw [carry, i64_eq hsum, hshift, i64_eq (hmul.trans_lt hbi), i64_eq (hrest.trans_lt (by omega)),
    hget, i64_eq (hcm.trans_lt (by omega)), i64_eq hadd]

/-- A step keeps the number, and the bounds. -/
theorem carry_spec {s : CarryStep} {t b : Vector ℤ 10} (h : s.Fits b)
    (hb : ∀ l : Fin 10, |t[l]| ≤ b[l]) :
    eval (carry t s) = eval t ∧ ∀ l : Fin 10, |(carry t s)[l]| ≤ (s.bound b)[l] := by
  rw [carry_eq h hb]
  obtain ⟨hij, hk, hweight, -, -⟩ := h
  obtain ⟨hc, hrest, -⟩ := abs_carried (hb s.i) hk
  generalize (t[s.i] + 2 ^ (s.k - 1)) / 2 ^ s.k = c at hc hrest ⊢
  have hget : (t.set s.i (t[s.i] - c * 2 ^ s.k))[s.j] = t[s.j] := by
    simp [Fin.val_ne_of_ne hij]
  refine ⟨?_, fun l => ?_⟩
  · have hweight : (2 : F25519) ^ exponent s.i * 2 ^ s.k = 2 ^ exponent s.j * s.m := by
      have hcast := (ZMod.natCast_eq_natCast_iff' _ _ _).2 hweight
      exact_mod_cast hcast
    rw [eval_set, eval_set, hget]
    push_cast
    linear_combination (-(c : F25519)) * hweight
  · rw [CarryStep.bound]
    by_cases hlj : l = s.j
    · subst hlj
      simp only [Fin.getElem_fin, Vector.getElem_set_self]
      refine (abs_add_le _ _).trans (add_le_add (hb _) ?_)
      rw [abs_mul, Nat.abs_cast]
      exact mul_le_mul_of_nonneg_right hc (Int.natCast_nonneg _)
    · have hne := Fin.val_ne_of_ne (Ne.symm hlj)
      by_cases hli : l = s.i
      · subst hli
        simp only [Fin.getElem_fin, Vector.getElem_set_ne _ _ hne, Vector.getElem_set_self]
        exact hrest
      · have hne' := Fin.val_ne_of_ne (Ne.symm hli)
        simp only [Fin.getElem_fin, Vector.getElem_set_ne _ _ hne, Vector.getElem_set_ne _ _ hne']
        exact hb l

/-- All steps fit, one after the other. -/
def AllFit : List CarryStep → Vector ℤ 10 → Prop
  | [], _ => True
  | s :: ss, b => s.Fits b ∧ AllFit ss (s.bound b)

instance decidableAllFit : ∀ ss b, Decidable (AllFit ss b)
  | [], _ => inferInstanceAs (Decidable True)
  | s :: ss, b =>
    have := decidableAllFit ss (s.bound b)
    inferInstanceAs (Decidable (_ ∧ _))

theorem foldl_carry {ss : List CarryStep} {t b : Vector ℤ 10} (h : AllFit ss b)
    (hb : ∀ l : Fin 10, |t[l]| ≤ b[l]) :
    eval (ss.foldl carry t) = eval t ∧
      ∀ l : Fin 10, |(ss.foldl carry t)[l]| ≤ (ss.foldl (fun b s => s.bound b) b)[l] := by
  induction ss generalizing t b with
  | nil => exact ⟨rfl, hb⟩
  | cons s ss ih =>
    obtain ⟨heval, hbound⟩ := carry_spec h.1 hb
    obtain ⟨hih, hihbound⟩ := ih h.2 hbound
    exact ⟨hih.trans heval, hihbound⟩

theorem unit_le (i : Fin 10) : unit i ≤ 36909875 := by
  rw [unit]
  split_ifs <;> decide

theorem unit_nonneg (i : Fin 10) : 0 ≤ unit i := by
  rw [unit]
  split_ifs <;> decide

/-- Limbs up to `2 ^ 62` are carried. -/
theorem holds_carry {t : Vector ℤ 10} (h : ∀ l : Fin 10, |t[l]| ≤ 2 ^ 62) :
    Holds (FE_CARRY t) 1 (eval t) := by
  have hfit : AllFit carries (Vector.replicate 10 (2 ^ 62)) := by decide +kernel
  have hunit : ∀ l : Fin 10,
      (carries.foldl (fun b s => s.bound b) (Vector.replicate 10 (2 ^ 62)))[l] ≤ unit l := by
    decide +kernel
  obtain ⟨heval, hbound⟩ := foldl_carry (t := t) hfit (by simpa using h)
  rw [FE_CARRY]
  generalize carries.foldl carry t = t' at heval hbound
  have hle : ∀ l : Fin 10, |t'[l]| ≤ unit l := fun l => (hbound l).trans (hunit l)
  have hmap : t'.map i32 = t' := by
    refine Vector.ext fun l hl => ?_
    rw [Vector.getElem_map]
    exact i32_eq (((hle ⟨l, hl⟩).trans (unit_le _)).trans_lt (by norm_num))
  rw [hmap]
  exact ⟨fun l => by rw [one_mul]; exact hle l, heval⟩

/-! ## Sums -/

theorem Holds.mono {f : fe} {a b : ℤ} {x : F25519} (h : Holds f a x) (hab : a ≤ b) : Holds f b x :=
  ⟨fun i => (h.abs_le i).trans (mul_le_mul_of_nonneg_right hab (unit_nonneg i)),
    h.eval_eq⟩

/-- Limbs of some units fit in words. -/
theorem limb_lt {x m : ℤ} {i : Fin 10} (hx : |x| ≤ m * unit i) (hm : m ≤ 58) : |x| < 2 ^ 31 :=
  calc |x| ≤ m * unit i := hx
    _ ≤ 58 * unit i := mul_le_mul_of_nonneg_right hm (unit_nonneg i)
    _ ≤ 58 * 36909875 := mul_le_mul_of_nonneg_left (unit_le i) (by decide)
    _ < 2 ^ 31 := by decide

theorem i32_limb {x : ℤ} {m : ℤ} {i : Fin 10} (hx : |x| ≤ m * unit i) (hm : m ≤ 58) :
    i32 x = x := i32_eq (limb_lt hx hm)

theorem holds_0 : Holds fe_0 0 0 := ⟨by decide, by simp [eval, fe_0]⟩

theorem holds_1 : Holds fe_1 1 1 :=
  ⟨by decide, by simp [eval, fe_1, Fin.sum_univ_succ, exponent]⟩

theorem holds_neg {f : fe} {a : ℤ} {x : F25519} (hf : Holds f a x) (ha : a ≤ 58) :
    Holds (fe_neg f) a (-x) := by
  have hget : ∀ i : Fin 10, (fe_neg f)[i] = -f[i] := fun i => by
    simp only [fe_neg, Fin.getElem_fin, Vector.getElem_map]
    exact i32_limb (by rw [abs_neg]; exact hf.abs_le i) ha
  refine ⟨fun i => by rw [hget, abs_neg]; exact hf.abs_le i, ?_⟩
  rw [← hf.eval_eq, eval, eval, ← Finset.sum_neg_distrib]
  exact Finset.sum_congr rfl fun i _ => by rw [hget]; push_cast; ring

theorem holds_add {f g : fe} {a b : ℤ} {x y : F25519} (hf : Holds f a x) (hg : Holds g b y)
    (hab : a + b ≤ 58) : Holds (fe_add f g) (a + b) (x + y) := by
  have habs : ∀ i : Fin 10, |f[i] + g[i]| ≤ (a + b) * unit i := fun i => by
    rw [add_mul]
    exact (abs_add_le _ _).trans (add_le_add (hf.abs_le i) (hg.abs_le i))
  have hget : ∀ i : Fin 10, (fe_add f g)[i] = f[i] + g[i] := fun i => by
    simp only [fe_add, Fin.getElem_fin, Vector.getElem_zipWith]
    exact i32_limb (habs i) hab
  refine ⟨fun i => by rw [hget]; exact habs i, ?_⟩
  rw [← hf.eval_eq, ← hg.eval_eq, eval, eval, eval, ← Finset.sum_add_distrib]
  exact Finset.sum_congr rfl fun i _ => by rw [hget]; push_cast; ring

theorem holds_sub {f g : fe} {a b : ℤ} {x y : F25519} (hf : Holds f a x) (hg : Holds g b y)
    (hab : a + b ≤ 58) : Holds (fe_sub f g) (a + b) (x - y) := by
  have habs : ∀ i : Fin 10, |f[i] - g[i]| ≤ (a + b) * unit i := fun i => by
    rw [add_mul]
    exact (abs_sub _ _).trans (add_le_add (hf.abs_le i) (hg.abs_le i))
  have hget : ∀ i : Fin 10, (fe_sub f g)[i] = f[i] - g[i] := fun i => by
    simp only [fe_sub, Fin.getElem_fin, Vector.getElem_zipWith]
    exact i32_limb (habs i) hab
  refine ⟨fun i => by rw [hget]; exact habs i, ?_⟩
  rw [← hf.eval_eq, ← hg.eval_eq, eval, eval, eval, ← Finset.sum_sub_distrib]
  exact Finset.sum_congr rfl fun i _ => by rw [hget]; push_cast; ring

/-! ## Products -/

/-- How often the product of limb `i` and limb `j` counts in limb `i + j`. -/
def coefficient (i j : Fin 10) : ℕ :=
  (if 10 ≤ i.val + j.val then 19 else 1) * (if i.val % 2 = 1 ∧ j.val % 2 = 1 then 2 else 1)

/-- The limbs of a product, which are not carried. -/
def product (f g : fe) : Vector ℤ 10 :=
  Vector.ofFn fun k => ∑ i : Fin 10, coefficient i (k - i) * (f[i] * g[k - i])

theorem exponent_add (i j : Fin 10) : (2 : F25519) ^ exponent i * 2 ^ exponent j =
    coefficient i j * 2 ^ exponent (i + j) := by
  have hmod : ∀ i j : Fin 10, 2 ^ exponent i * 2 ^ exponent j % p25519 =
    coefficient i j * 2 ^ exponent (i + j) % p25519 := by decide +kernel
  have hcast := (ZMod.natCast_eq_natCast_iff' _ _ _).2 (hmod i j)
  exact_mod_cast hcast

theorem eval_product (f g : fe) : eval (product f g) = eval f * eval g := by
  have hsum : ∀ i : Fin 10, ∑ k : Fin 10, (2 : F25519) ^ exponent k *
      (coefficient i (k - i) * (f[i] * g[k - i])) = 2 ^ exponent i * f[i] * eval g := fun i => by
    rw [eval, Finset.mul_sum, ← Equiv.sum_comp (Equiv.addLeft i)]
    refine Finset.sum_congr rfl fun j _ => ?_
    simp only [Equiv.coe_addLeft, add_sub_cancel_left]
    linear_combination (-(f[i] : F25519) * g[j]) * exponent_add i j
  calc eval (product f g)
      = ∑ k : Fin 10, ∑ i : Fin 10, (2 : F25519) ^ exponent k *
          (coefficient i (k - i) * (f[i] * g[k - i])) := by
        simp only [eval, product, Fin.getElem_fin, Vector.getElem_ofFn]
        push_cast
        simp only [Finset.mul_sum]
    _ = ∑ i : Fin 10, 2 ^ exponent i * f[i] * eval g := by
        rw [Finset.sum_comm]
        exact Finset.sum_congr rfl fun i _ => hsum i
    _ = eval f * eval g := by rw [← Finset.sum_mul]; rfl

theorem abs_product_le {f g : fe} (hf : ∀ i : Fin 10, |f[i]| ≤ 3 * unit i)
    (hg : ∀ i : Fin 10, |g[i]| ≤ 3 * unit i) (k : Fin 10) : |(product f g)[k]| ≤ 2 ^ 62 := by
  have hunit : ∀ k : Fin 10, ∑ i : Fin 10,
      (coefficient i (k - i) : ℤ) * (3 * unit i * (3 * unit (k - i))) ≤ 2 ^ 62 := by decide +kernel
  refine le_trans ?_ (hunit k)
  simp only [product, Fin.getElem_fin, Vector.getElem_ofFn]
  refine (Finset.abs_sum_le_sum_abs _ _).trans (Finset.sum_le_sum fun i _ => ?_)
  rw [abs_mul, Nat.abs_cast, abs_mul]
  have hnonneg := (abs_nonneg _).trans (hf i)
  exact mul_le_mul_of_nonneg_left (mul_le_mul (hf i) (hg (k - i)) (abs_nonneg _) hnonneg)
    (Int.natCast_nonneg _)

/-- No word overflows in a limb times a small number. -/
theorem i32_mul {f : fe} {m c : ℤ} (hf : ∀ i : Fin 10, |f[i]| ≤ m * unit i) (hc : 0 ≤ c)
    (hm : m * c ≤ 58) (i : ℕ) (hi : i < 10) : i32 (f[i] * c) = f[i] * c := by
  refine i32_limb (i := ⟨i, hi⟩) ?_ hm
  rw [abs_mul, abs_of_nonneg hc, mul_right_comm]
  exact mul_le_mul_of_nonneg_right (hf ⟨i, hi⟩) hc

/-- No word overflows in a product, and its limbs are those that are carried. -/
theorem fe_mul_eq {f g : fe} (hf : ∀ i : Fin 10, |f[i]| ≤ 3 * unit i)
    (hg : ∀ i : Fin 10, |g[i]| ≤ 3 * unit i) : fe_mul f g = FE_CARRY (product f g) := by
  have h64 : ∀ k : Fin 10, i64 (product f g)[k] = (product f g)[k] := fun k =>
    i64_eq ((abs_product_le hf hg k).trans_lt (by norm_num))
  rw [fe_mul]
  congr 1
  refine Vector.ext fun k hk => ?_
  have hproduct := h64 ⟨k, hk⟩
  simp only [product, Fin.getElem_fin, Vector.getElem_ofFn, sum_ten] at hproduct ⊢
  simp only [i32_mul hf (c := 2) (by decide) (by decide),
    i32_mul hg (c := 19) (by decide) (by decide)]
  rw [← hproduct]
  interval_cases k
  all_goals
    refine congrArg i64 ?_
    simp only [Fin.reduceFinMk, Fin.reduceSub, Fin.isValue, coefficient]
    norm_num <;> ring

/-- Nor in a square. -/
theorem fe_sq_eq {f : fe} (hf : ∀ i : Fin 10, |f[i]| ≤ 3 * unit i) :
    fe_sq f = FE_CARRY (product f f) := by
  have h64 : ∀ k : Fin 10, i64 (product f f)[k] = (product f f)[k] := fun k =>
    i64_eq ((abs_product_le hf hf k).trans_lt (by norm_num))
  have h38 : ∀ (i : ℕ) (hi : i < 10), i % 2 = 1 → i32 (f[i] * 38) = f[i] * 38 := by
    intro i hi hodd
    have hlimb := hf ⟨i, hi⟩
    rw [unit, if_neg (by dsimp only; omega)] at hlimb
    refine i32_eq ?_
    rw [abs_mul]
    change |f[i]| ≤ _ at hlimb
    change _ * 38 < _
    omega
  rw [fe_sq]
  congr 1
  refine Vector.ext fun k hk => ?_
  have hproduct := h64 ⟨k, hk⟩
  simp only [product, Fin.getElem_fin, Vector.getElem_ofFn, sum_ten] at hproduct ⊢
  simp only [i32_mul hf (c := 2) (by decide) (by decide),
    i32_mul hf (c := 19) (by decide) (by decide), h38 5 (by decide) rfl, h38 7 (by decide) rfl,
    h38 9 (by decide) rfl]
  rw [← hproduct]
  interval_cases k
  all_goals
    refine congrArg i64 ?_
    simp only [Fin.reduceFinMk, Fin.reduceSub, Fin.isValue, coefficient]
    norm_num
    ring

theorem holds_mul {f g : fe} {x y : F25519} (hf : Holds f 3 x) (hg : Holds g 3 y) :
    Holds (fe_mul f g) 1 (x * y) := by
  rw [fe_mul_eq hf.abs_le hg.abs_le, ← hf.eval_eq, ← hg.eval_eq, ← eval_product]
  exact holds_carry (abs_product_le hf.abs_le hg.abs_le)

theorem holds_sq {f : fe} {x : F25519} (hf : Holds f 3 x) : Holds (fe_sq f) 1 (x ^ 2) := by
  rw [fe_sq_eq hf.abs_le, ← hf.eval_eq, sq, ← eval_product]
  exact holds_carry (abs_product_le hf.abs_le hf.abs_le)

theorem holds_mul_small {f : fe} {x : F25519} (hf : Holds f 3 x) {g : ℤ} (hg : |g| ≤ 2 ^ 31) :
    Holds (fe_mul_small f g) 1 (x * g) := by
  have habs : ∀ i : Fin 10, |f[i] * g| ≤ 2 ^ 62 := fun i => by
    rw [abs_mul]
    have hunit := unit_le i
    calc |f[i]| * |g| ≤ (3 * 36909875) * 2 ^ 31 :=
          mul_le_mul ((hf.abs_le i).trans (by omega)) hg (abs_nonneg g) (by decide)
      _ ≤ 2 ^ 62 := by decide
  have hget : ∀ i : Fin 10, (f.map fun x => i64 (x * g))[i] = f[i] * g := fun i => by
    simp only [Fin.getElem_fin, Vector.getElem_map]
    exact i64_eq ((habs i).trans_lt (by decide))
  have heval : eval (f.map fun x => i64 (x * g)) = x * g := by
    rw [← hf.eval_eq, eval, eval, Finset.sum_mul]
    exact Finset.sum_congr rfl fun i _ => by rw [hget]; push_cast; ring
  rw [fe_mul_small, ← heval]
  exact holds_carry fun i => by rw [hget]; exact habs i

theorem holds_sq2 {f : fe} {x : F25519} (hf : Holds f 3 x) : Holds (fe_sq2 f) 1 (2 * x ^ 2) := by
  have htwo := holds_mul_small ((holds_sq hf).mono (b := 3) (by decide)) (g := 2) (by decide)
  rw [mul_comm]
  exact_mod_cast htwo

/-! ## Copying -/

/-- A word is overwritten or not. -/
theorem ccopy_word {x y : ℤ} (hx : |x| < 2 ^ 31) (hy : |y| < 2 ^ 31) {b : ℤ} (hb : b = 0 ∨ b = 1) :
    (Int32.ofInt x ^^^ ((Int32.ofInt x ^^^ Int32.ofInt y) &&& Int32.ofInt (-b))).toInt =
      if b = 1 then y else x := by
  have hofInt : ∀ {x : ℤ}, |x| < 2 ^ 31 → (Int32.ofInt x).toInt = x := fun hx =>
    Int32.toInt_ofInt_of_le (abs_lt.1 hx).1.le (abs_lt.1 hx).2
  rcases hb with rfl | rfl
  · have hmask : Int32.ofInt (-0) = 0 := rfl
    rw [hmask, Int32.and_zero, Int32.xor_zero, if_neg (by decide), hofInt hx]
  · have hmask : Int32.ofInt (-1) = -1 := rfl
    rw [hmask, Int32.and_neg_one, ← Int32.xor_assoc, Int32.xor_self, Int32.zero_xor, if_pos rfl,
      hofInt hy]

theorem Holds.abs_lt {f : fe} {a : ℤ} {x : F25519} (hf : Holds f a x) (ha : a ≤ 58) (i : ℕ)
    (hi : i < 10) : |f[i]| < 2 ^ 31 := limb_lt (hf.abs_le ⟨i, hi⟩) ha

section Copying

variable {f g : fe} {a b : ℤ} {x y : F25519}

theorem fe_ccopy_eq (hf : Holds f a x) (hg : Holds g a y) (ha : a ≤ 58) (hb : b = 0 ∨ b = 1) :
    fe_ccopy f g b = if b = 1 then g else f := by
  refine Vector.ext fun i hi => ?_
  rw [fe_ccopy, Vector.getElem_zipWith, ccopy_word (hf.abs_lt ha i hi) (hg.abs_lt ha i hi) hb]
  split_ifs <;> rfl

theorem holds_ccopy (hf : Holds f a x) (hg : Holds g a y) (ha : a ≤ 58) (hb : b = 0 ∨ b = 1) :
    Holds (fe_ccopy f g b) a (if b = 1 then y else x) := by
  rw [fe_ccopy_eq hf hg ha hb]
  split_ifs
  · exact hg
  · exact hf

theorem fe_cswap_eq (hf : Holds f a x) (hg : Holds g a y) (ha : a ≤ 58) (hb : b = 0 ∨ b = 1) :
    fe_cswap f g b = if b = 1 then (g, f) else (f, g) := by
  have hswap : fe_cswap f g b = (fe_ccopy f g b, fe_ccopy g f b) := by
    refine Prod.ext rfl (Vector.ext fun i hi => ?_)
    simp only [fe_cswap, fe_ccopy, Vector.getElem_zipWith, Int32.xor_comm (Int32.ofInt f[i])]
  rw [hswap, fe_ccopy_eq hf hg ha hb, fe_ccopy_eq hg hf ha hb]
  split_ifs <;> rfl

end Copying

end MonocypherC
