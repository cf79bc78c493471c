import NanoSwift.Monocypher.Words
import NanoSwift.Lib.Limbs

/-!
# Numbers modulo L

The order of the base point is the prime `L`; the scalars of signatures are numbers modulo
`L`. Monocypher holds them in words of 32 bits and never divides: the quotient by `L` is
found by a multiplication (`mod_l`), or division is by a power of two (`redc`).

* What `mod_l` gives is the remainder by `L`, of every number of 512 bits
  (`leValue_mod_l`); so scalars are reduced (`leValue_reduce`), multiplied and added
  (`leValue_mul_add`) modulo `L`.
* `redc` divides by `2 ^ 256` modulo `L` (`value_redc`).
-/

namespace MonocypherC

open NanoSwift (Bytes)
open Limbs (value addRow mulRows truncRows)

/-! ## Definitions -/

/-- The order of the base point, as words. -/
def L : List UInt32 :=
  [0x5cf5d3ed, 0x5812631a, 0xa2f79cd6, 0x14def9de, 0x00000000, 0x00000000, 0x00000000, 0x10000000]

/-- Adds the product of `a` and `b` to `p`. -/
def multiply (p a b : List UInt32) : List UInt32 := mulRows a b p

/-- Says by one or zero whether a number is `L` or above: the carry of what is left without `L`. -/
def is_above_l (x : List UInt32) : UInt64 := (addRow x (L.map (~~~·)) 1).2

/-- Removes `L` from a number, if it is there. -/
def remove_l (x : List UInt32) : List UInt32 :=
  let carry := is_above_l x
  let mask := ~~~carry.toUInt32 + 1
  (addRow x (L.map (~~~· &&& mask)) carry).1

/-- The quotient of `2 ^ 512` by `L`. -/
def mod_l.r : List UInt32 :=
  [0x0a2c131b, 0xed9ce5a3, 0x086329a7, 0x2106215d, 0xffffffeb, 0xffffffff, 0xffffffff, 0xffffffff,
    0xf]

/-- The remainder of 16 words by `L`. -/
def mod_l (x : List UInt32) : Bytes :=
  let xr := mulRows mod_l.r x (List.replicate 25 0)
  -- The quotient, above 512 bits, times `L`; its words above 256 bits are not needed.
  let xr := truncRows (xr.drop 16) L (List.replicate 8 0)
  let xr := (addRow (x.take 8) (xr.map (~~~·)) 1).1
  store32_le_buf (remove_l xr)

/-- The remainder of 64 bytes. -/
def reduce (r : Bytes) : Bytes := mod_l (load32_le_buf r 16)

/-- The remainder of `a * b + c`. -/
def mul_add (a b c : Bytes) : Bytes :=
  let A := load32_le_buf a 8
  let B := load32_le_buf b 8
  let p := load32_le_buf c 8 ++ List.replicate 8 0
  mod_l (multiply p A B)

/-- The number that makes `L`, times it, `-1` modulo `2 ^ 256`. -/
def redc.k : List UInt32 :=
  [0x12547e1b, 0xd2b51da3, 0xfdba84ff, 0xb1a206f2, 0xffa36bea, 0x14e75438, 0x6fe91836, 0x9db6c6f2]

/-- Divides 16 words by `2 ^ 256`, modulo `L`. -/
def redc (x : List UInt32) : List UInt32 :=
  let s := truncRows x redc.k (List.replicate 8 0)
  let t := multiply (List.replicate 16 0) s L
  let t := (addRow t x 0).1
  remove_l (t.drop 8)

/-! ## Words as numbers -/

theorem length_load32_le_buf (src : Bytes) (size : ℕ) : (load32_le_buf src size).length = size := by
  rw [load32_le_buf, List.length_map, List.length_range]

/-- The words at `src` denote what its bytes do. -/
theorem value_load32_le_buf (src : Bytes) (size : ℕ) :
    value (load32_le_buf src size) = leValue (src.take (4 * size)) := by
  induction size with
  | zero => rfl
  | succ size ih =>
    rw [load32_le_buf, List.range_succ, List.map_append, Limbs.value_append, List.length_map,
      List.length_range]
    change value (load32_le_buf src size) + _ = _
    rw [ih, Nat.mul_succ, List.take_add, leValue_append, List.map_singleton, Limbs.value_cons,
      toNat_load32_le, Limbs.value_nil]
    rcases le_or_gt (4 * size) src.length with hlen | hlen
    · rw [List.length_take_of_le hlen, Nat.mul_zero, Nat.add_zero,
        show 32 * size = 8 * (4 * size) by ring, pow_mul 2 8]
      norm_num
    · rw [List.drop_of_length_le hlen.le]
      simp

theorem leValue_store32_le_buf (src : List UInt32) : leValue (store32_le_buf src) = value src := by
  induction src with
  | nil => rfl
  | cons w src ih =>
    rw [store32_le_buf, List.flatMap_cons, leValue_append, leValue_store32_le, length_store32_le,
      Limbs.value_cons]
    exact congrArg (fun k => w.toNat + 256 ^ 4 * k) ih

/-! ## Reduction -/

/-- The order of the base point. -/
def order : ℕ := 2 ^ 252 + 27742317777372353535851937790883648493

theorem value_L : value L = order := by decide

/-- Words are compared with `L`. -/
theorem is_above_l_eq {x : List UInt32} (hx : x.length = 8) :
    is_above_l x = if order ≤ value x then 1 else 0 := by
  have hcarry := (Limbs.addRow_compl x L hx).1
  rw [value_L] at hcarry
  rw [is_above_l, ← UInt64.toNat_inj, hcarry]
  split_ifs <;> rfl

/-- From a number below `2 * L`, `L` is removed at most once. -/
theorem value_remove_l {x : List UInt32} (hx : x.length = 8) (hlt : value x < 2 * order) :
    value (remove_l x) = value x % order ∧ (remove_l x).length = 8 := by
  rw [remove_l, is_above_l_eq hx]
  split_ifs with habove
  · have hmask : L.map (~~~· &&& (~~~(1 : UInt64).toUInt32 + 1)) = L.map (~~~·) := by decide
    have hremove := (Limbs.addRow_compl x L hx).2.1
    rw [value_L] at hremove
    simp only [hmask]
    refine ⟨?_, by rw [Limbs.length_addRow _ _ (by simp [hx, L]), hx]⟩
    rw [hremove habove, Nat.mod_eq_sub_mod habove, Nat.mod_eq_of_lt (by omega)]
  · have hmask : L.map (~~~· &&& (~~~(0 : UInt64).toUInt32 + 1)) = List.replicate 8 0 := by decide
    have hadd := Limbs.value_addRow x (List.replicate 8 0) (by simp [hx]) 0 (by decide)
    have hbound := Limbs.value_lt x
    rw [Limbs.value_zeros, UInt64.toNat_zero, hx] at hadd
    rw [hx] at hbound
    simp only [hmask]
    refine ⟨?_, by rw [Limbs.length_addRow _ _ (by simp [hx]), hx]⟩
    rw [Nat.mod_eq_of_lt (by omega)]
    omega

theorem order_pos : 0 < order := by decide

theorem value_mod_l_r : value mod_l.r = 2 ^ (32 * 16) / order := by decide +kernel

/-- The product of the quotient and `L`, in its first 256 bits. -/
theorem value_quotient {x : List UInt32} (hx : x.length = 16) :
    value (truncRows ((mulRows mod_l.r x (List.replicate 25 0)).drop 16) L (List.replicate 8 0)) =
        value x * (2 ^ (32 * 16) / order) / 2 ^ (32 * 16) * order % 2 ^ 256 ∧
      (truncRows ((mulRows mod_l.r x (List.replicate 25 0)).drop 16) L
        (List.replicate 8 0)).length = 8 := by
  have hzeros : List.replicate 25 (0 : UInt32) =
    List.replicate 16 0 ++ List.replicate mod_l.r.length 0 := by decide
  obtain ⟨hrows, hrowslen⟩ := Limbs.value_mulRows mod_l.r x (List.replicate 16 0)
    (by rw [hx, List.length_replicate])
  rw [← hzeros, Limbs.value_zeros, Nat.add_zero, value_mod_l_r, Nat.mul_comm] at hrows
  rw [← hzeros, hx] at hrowslen
  obtain ⟨hprod, hlen⟩ := Limbs.value_truncRows
    ((mulRows mod_l.r x (List.replicate 25 0)).drop 16) L (List.replicate 8 0)
    (by decide)
  refine ⟨?_, hlen⟩
  have hlt := Limbs.value_lt
    (truncRows ((mulRows mod_l.r x (List.replicate 25 0)).drop 16) L (List.replicate 8 0))
  rw [hlen, List.length_replicate] at hlt
  rw [Limbs.value_zeros, Nat.add_zero, value_L, List.length_replicate,
    Limbs.value_drop _ (by rw [hrowslen]; decide), hrows] at hprod
  exact (Nat.mod_eq_of_lt hlt).symm.trans hprod

/-- The remainder of any number of 512 bits. -/
theorem leValue_mod_l {x : List UInt32} (hx : x.length = 16) :
    leValue (mod_l x) = value x % order ∧ (mod_l x).length = 32 := by
  have hlt := Limbs.value_lt x
  rw [hx] at hlt
  have hle := Nat.barrett_le (value x) (2 ^ (32 * 16)) order
  have hrest := Nat.barrett_lt hlt order_pos
  rw [Nat.add_mul] at hrest
  obtain ⟨hquot, hquotlen⟩ := value_quotient hx
  rw [mod_l]
  generalize truncRows ((mulRows mod_l.r x (List.replicate 25 0)).drop 16) L
    (List.replicate 8 0) = xr at hquot hquotlen ⊢
  generalize value x * (2 ^ (32 * 16) / order) / 2 ^ (32 * 16) = q at hle hrest hquot
  -- What is left without the quotient is below `2 * L`, so 256 bits tell it.
  have htake : (x.take 8).length = 8 := List.length_take_of_le (by omega)
  have hlow := Limbs.value_take x (k := 8) (by omega)
  have hsub := (Limbs.addRow_compl (x.take 8) xr (by omega)).2.2
  have hsublen := Limbs.length_addRow (x.take 8) (xr.map (~~~·))
    (by rw [List.length_map]; omega) 1
  rw [htake] at hsub hsublen
  generalize (addRow (x.take 8) (xr.map (~~~·)) 1).1 = rest at hsub hsublen ⊢
  have hbound := Limbs.value_lt rest
  rw [hsublen] at hbound
  have horder : 2 * order < 2 ^ 256 := by decide
  have hvalue : value rest = value x - q * order := by omega
  obtain ⟨hremove, hremovelen⟩ := value_remove_l hsublen (by rw [hvalue]; omega)
  rw [leValue_store32_le_buf, hremove, hvalue, length_store32_le_buf, hremovelen]
  refine ⟨?_, rfl⟩
  conv_rhs => rw [← Nat.sub_add_cancel hle, Nat.add_mul_mod_self_right]

/-- The remainder of 64 bytes. -/
theorem leValue_reduce {r : Bytes} (hr : r.length = 64) :
    leValue (reduce r) = leValue r % order ∧ (reduce r).length = 32 := by
  have hmod := leValue_mod_l (length_load32_le_buf r 16)
  rwa [value_load32_le_buf, List.take_of_length_le hr.le] at hmod

/-- A product and a sum modulo `L`. -/
theorem leValue_mul_add {a b c : Bytes} (ha : a.length = 32) (hb : b.length = 32)
    (hc : c.length = 32) :
    leValue (mul_add a b c) = (leValue a * leValue b + leValue c) % order ∧
      (mul_add a b c).length = 32 := by
  obtain ⟨hrows, hrowslen⟩ := Limbs.value_mulRows (load32_le_buf a 8) (load32_le_buf b 8)
    (load32_le_buf c 8) (by rw [length_load32_le_buf, length_load32_le_buf])
  simp only [length_load32_le_buf, value_load32_le_buf, List.take_of_length_le ha.le,
    List.take_of_length_le hb.le, List.take_of_length_le hc.le] at hrows hrowslen
  rw [← hrows]
  exact leValue_mod_l hrowslen

/-- A product of a long number and a scalar, and a sum, is below `L`. -/
theorem mul_add_reduce {h a c : Bytes} (hh : h.length = 64) (ha : a.length = 32)
    (hc : c.length = 32) :
    leValue (mul_add (reduce h) a c) = (leValue h * leValue a + leValue c) % order ∧
      leValue (mul_add (reduce h) a c) < order := by
  obtain ⟨hreduce, hlen⟩ := leValue_reduce hh
  have hvalue := (leValue_mul_add hlen ha hc).1
  rw [hreduce] at hvalue
  have hmod : (leValue h % order * leValue a + leValue c) % order =
      (leValue h * leValue a + leValue c) % order :=
    ((Nat.mod_modEq _ _).mul_right _).add_right _
  rw [hvalue, hmod]
  exact ⟨rfl, Nat.mod_lt _ order_pos⟩

theorem mul_add_reduce_max :
    leValue (mul_add (reduce (List.replicate 64 0xff)) (List.replicate 32 0xff)
        (List.replicate 32 0xff)) =
        (leValue (List.replicate 64 0xff) * leValue (List.replicate 32 0xff) +
          leValue (List.replicate 32 0xff)) % order ∧
      leValue (mul_add (reduce (List.replicate 64 0xff)) (List.replicate 32 0xff)
        (List.replicate 32 0xff)) < order :=
  mul_add_reduce List.length_replicate List.length_replicate List.length_replicate

theorem value_redc_k : (value redc.k * order + 1) % 2 ^ 256 = 0 := by decide +kernel

theorem value_multiply_L {s : List UInt32} (hs : s.length = 8) :
    value (multiply (List.replicate 16 0) s L) = value s * order ∧
      (multiply (List.replicate 16 0) s L).length = 16 := by
  have hzeros : List.replicate 16 (0 : UInt32) =
    List.replicate 8 0 ++ List.replicate s.length 0 := by rw [hs]; decide
  obtain ⟨hval, hlen⟩ := Limbs.value_mulRows s L (List.replicate 8 0) rfl
  rw [← hzeros, Limbs.value_zeros, Nat.add_zero, value_L] at hval
  rw [← hzeros, hs] at hlen
  exact ⟨hval, hlen⟩

/-- The multiple of `L` that makes the first 256 bits zero. -/
theorem redc_multiple_mod {s x : ℕ} (h : s ≡ x * value redc.k [MOD 2 ^ 256]) :
    (s * order + x) % 2 ^ 256 = 0 := by
  have hmod : s * order + x ≡ x * (value redc.k * order + 1) [MOD 2 ^ 256] := by
    calc s * order + x
        ≡ x * value redc.k * order + x [MOD 2 ^ 256] := (h.mul_right order).add_right _
      _ = x * (value redc.k * order + 1) := by ring
  exact hmod.trans
    (Nat.modEq_zero_iff_dvd.2 ((Nat.dvd_of_mod_eq_zero value_redc_k).mul_left _))

/-- Dividing by `2 ^ 256` modulo `L`. -/
theorem value_redc {x : List UInt32} (hx : x.length = 16) (hlt : value x < order * 2 ^ 256) :
    value (redc x) * 2 ^ 256 ≡ value x [MOD order] ∧ value (redc x) < order ∧
      (redc x).length = 8 := by
  obtain ⟨hs, hslen⟩ := Limbs.value_truncRows x redc.k (List.replicate 8 0)
    (by decide)
  have hslt := Limbs.value_lt (truncRows x redc.k (List.replicate 8 0))
  rw [redc]
  generalize truncRows x redc.k (List.replicate 8 0) = s at hs hslen hslt ⊢
  rw [List.length_replicate] at hslen hs
  rw [Limbs.value_zeros, Nat.add_zero] at hs
  rw [hslen] at hslt
  obtain ⟨ht, htlen⟩ := value_multiply_L hslen
  generalize multiply (List.replicate 16 0) s L = t at ht htlen ⊢
  have hsum := Limbs.value_addRow t x (by omega) 0 (by decide)
  have hsumlen := Limbs.length_addRow t x (by omega) 0
  rw [ht, UInt64.toNat_zero, Nat.add_zero, htlen] at hsum
  rw [htlen] at hsumlen
  have hbound := Limbs.value_lt (addRow t x 0).1
  rw [hsumlen] at hbound
  generalize (addRow t x 0).1 = u at hsum hsumlen hbound ⊢
  generalize (addRow t x 0).2.toNat = out at hsum
  have hdrop := Limbs.value_drop u (k := 8) (by omega)
  have hdroplen : (u.drop 8).length = 8 := by rw [List.length_drop, hsumlen]
  -- Nothing is carried out.
  have hslt' : value s * order < 2 ^ 256 * order := Nat.mul_lt_mul_of_pos_right hslt order_pos
  have horder : 2 * (2 ^ 256 * order) < 2 ^ (32 * 16) := by decide +kernel
  have hout : out = 0 := by
    refine Nat.lt_one_iff.1 (Nat.lt_of_mul_lt_mul_left (a := 2 ^ (32 * 16)) ?_)
    calc 2 ^ (32 * 16) * out ≤ value u + 2 ^ (32 * 16) * out := Nat.le_add_left _ _
      _ = value s * order + value x := hsum
      _ < 2 ^ 256 * order + order * 2 ^ 256 := Nat.add_lt_add hslt' hlt
      _ = 2 * (2 ^ 256 * order) := by ring
      _ < 2 ^ (32 * 16) * 1 := by rwa [Nat.mul_one]
  rw [hout, Nat.mul_zero, Nat.add_zero] at hsum
  have hexact : value (u.drop 8) * 2 ^ 256 = value s * order + value x := by
    rw [hdrop, hsum]
    exact Nat.div_mul_cancel (Nat.dvd_of_mod_eq_zero (redc_multiple_mod hs))
  obtain ⟨hremove, hremovelen⟩ := value_remove_l hdroplen (by omega)
  refine ⟨?_, by rw [hremove]; exact Nat.mod_lt _ order_pos, hremovelen⟩
  calc value (remove_l (u.drop 8)) * 2 ^ 256
      ≡ value (u.drop 8) * 2 ^ 256 [MOD order] := by
        rw [hremove]
        exact (Nat.mod_modEq _ _).mul_right _
    _ = value s * order + value x := hexact
    _ ≡ value x [MOD order] := by simp [Nat.ModEq]

theorem value_redc_fives :
    value (redc (List.replicate 15 5 ++ [0])) * 2 ^ 256 ≡ value (List.replicate 15 5 ++ [0])
        [MOD order] ∧
      value (redc (List.replicate 15 5 ++ [0])) < order ∧
      (redc (List.replicate 15 5 ++ [0])).length = 8 :=
  value_redc rfl (by decide +kernel)

end MonocypherC
