import NanoSwift.Monocypher.BasePoint

/-!
# Multiples of the base point

`ge_scalarmult_base` multiplies with a comb. The scalar is recoded so that every bit counts as
one or minus one; then eight bits at a time, 32 apart, give two entries of the tables, which are
looked up in the same steps whatever the bits are.
-/

namespace MonocypherC

open NanoSwift (Bytes)
open Edwards SignedDigits

/-! ## Definitions -/

/-- Bit `i` of a scalar, and zero below. -/
def scalar_bit (s : Bytes) (i : ℤ) : ℤ :=
  if i < 0 then 0 else ((s.getD (i.toNat >>> 3) 0).toNat >>> (i.toNat &&& 7) &&& 1 : ℕ)

/-- One if `j` is the index, and zero if it is not. -/
def lookup_add.select (j : ℕ) (index : UInt8) : ℤ :=
  ((1 : UInt64) &&& ((UInt64.ofNat j ^^^ index.toUInt64) - 1) >>> 8).toNat

/-- The copy of entry `j` into `tmp_c`, if it is the one looked up. -/
def lookup_add.copy (comb : Vector ge_precomp 8) (index : UInt8) (tmp_c : ge_precomp)
    (j : Fin 8) : ge_precomp :=
  let select := lookup_add.select j index
  ⟨fe_ccopy tmp_c.Yp (comb.get j).Yp select, fe_ccopy tmp_c.Ym (comb.get j).Ym select,
    fe_ccopy tmp_c.T2 (comb.get j).T2 select⟩

/-- Adds the entry for the bits of the scalar at `i`, `i + 32`, `i + 64` and `i + 96`. -/
def lookup_add (p : ge) (tmp_c : ge_precomp) (comb : Vector ge_precomp 8) (scalar : Bytes)
    (i : ℤ) : ge × ge_precomp :=
  let teeth := UInt8.ofInt (scalar_bit scalar i + scalar_bit scalar (i + 32) * 2 ^ 1 +
    scalar_bit scalar (i + 64) * 2 ^ 2 + scalar_bit scalar (i + 96) * 2 ^ 3)
  let high := teeth >>> 3
  let index := (teeth ^^^ (high - 1)) &&& 7
  let tmp_c := (List.finRange 8).foldl (lookup_add.copy comb index) tmp_c
  let tmp_a := fe_neg tmp_c.T2
  let swap : ℤ := (high ^^^ 1).toNat
  let T2 := (fe_cswap tmp_c.T2 tmp_a swap).1
  let Y := fe_cswap tmp_c.Yp tmp_c.Ym swap
  let tmp_c : ge_precomp := ⟨Y.1, Y.2, T2⟩
  (ge_madd p tmp_c, tmp_c)

/-- `1 / 2` modulo `L`. -/
def half_mod_L : Bytes :=
  [247, 233, 122, 46, 141, 49, 9, 44, 107, 206, 123, 81, 239, 124, 111, 10,
    0, 0, 0, 0, 0, 0, 0, 0, 0, 0, 0, 0, 0, 0, 0, 8]

/-- `(2 ^ 256 - 1) / 2` modulo `L`. -/
def half_ones : Bytes :=
  [142, 74, 204, 70, 186, 24, 118, 107, 184, 231, 190, 57, 250, 173, 119, 99,
    255, 255, 255, 255, 255, 255, 255, 255, 255, 255, 255, 255, 255, 255, 255, 7]

def ge_scalarmult_base (scalar : Bytes) : ge :=
  let s_scalar := mul_add scalar half_mod_L half_ones
  let tmp_c : ge_precomp := ⟨fe_1, fe_1, fe_0⟩
  let r := lookup_add ge_zero tmp_c b_comb_low s_scalar 31
  let r := lookup_add r.1 r.2 b_comb_high s_scalar (31 + 128)
  let r := (List.range 31).reverse.foldl (fun r (i : ℕ) =>
    let p := ge_double r.1
    let r := lookup_add p r.2 b_comb_low s_scalar i
    lookup_add r.1 r.2 b_comb_high s_scalar (i + 128)) r
  r.1

/-! ## Bits -/

theorem scalar_bit_eq (s : Bytes) (i : ℤ) : scalar_bit s i = bit (leValue s) i := by
  rw [scalar_bit, bit]
  split_ifs with hi
  · rfl
  · generalize i.toNat = n
    have hseven : 7 = 2 ^ 3 - 1 := rfl
    have hone : 1 = 2 ^ 1 - 1 := rfl
    have hlt : n % 8 < 8 := Nat.mod_lt n (by decide)
    rw [Nat.shiftRight_eq_div_pow, hseven, Nat.and_two_pow_sub_one_eq_mod, hone,
      Nat.and_two_pow_sub_one_eq_mod, Nat.shiftRight_eq_div_pow, toNat_getD]
    have hpow : 256 = 2 ^ (n % 8) * 2 ^ (8 - n % 8) := by
      rw [← pow_add, Nat.add_sub_cancel' hlt.le]
      rfl
    have hdvd : 2 ∣ 2 ^ (8 - n % 8) := dvd_pow_self 2 (by omega)
    have hn : 2 ^ n = 256 ^ (n / 8) * 2 ^ (n % 8) := by
      calc 2 ^ n = 2 ^ (8 * (n / 8) + n % 8) := by rw [Nat.div_add_mod]
        _ = 256 ^ (n / 8) * 2 ^ (n % 8) := by rw [pow_add, pow_mul]; norm_num
    nth_rewrite 2 [hpow]
    rw [Nat.mod_mul_right_div_self, pow_one, Nat.mod_mod_of_dvd _ hdvd, Nat.div_div_eq_div_mul, ← hn]

/-! ## Looking up -/

theorem select_eq : ∀ j t : Fin 8,
    lookup_add.select j (UInt8.ofNat t) = if j = t then 1 else 0 := by
  decide +kernel

section Lookup

variable {comb : Vector ge_precomp 8} {point : Fin 8 → Point curve} {t : Fin 8}
  {q : ge_precomp} {p : Point curve}

/-- One copy: afterwards the entry holds either the point before or that of the table. -/
theorem isPoint_copy (hcomb : ∀ t, (comb.get t).IsPoint (point t)) (hq : q.IsPoint p)
    (j : Fin 8) :
    (lookup_add.copy comb (UInt8.ofNat t) q j).IsPoint (if j = t then point j else p) := by
  have hselect := ite_zero_or_one (P := j = t)
  obtain ⟨c, hc, hp⟩ := hq
  obtain ⟨c', hc', hp'⟩ := hcomb j
  rw [lookup_add.copy, select_eq]
  simp only [fe_ccopy_eq hc.Yp hc'.Yp (by decide) hselect,
    fe_ccopy_eq hc.Ym hc'.Ym (by decide) hselect, fe_ccopy_eq hc.T2 hc'.T2 (by decide) hselect,
    ite_eq_one_iff]
  split_ifs
  · exact ⟨c', hc', hp'⟩
  · exact ⟨c, hc, hp⟩

/-- All copies: the entry at the index is left, if it is among those gone through. -/
theorem isPoint_lookup (hcomb : ∀ t, (comb.get t).IsPoint (point t)) (js : List (Fin 8))
    (hq : q.IsPoint p) :
    (js.foldl (lookup_add.copy comb (UInt8.ofNat t)) q).IsPoint
      (if t ∈ js then point t else p) := by
  induction js generalizing q p with
  | nil => exact hq
  | cons j js ih =>
    have hjs := ih (isPoint_copy (t := t) hcomb hq j)
    rw [List.foldl_cons]
    convert hjs using 1
    by_cases hj : j = t
    · subst hj
      simp
    · simp [hj, Ne.symm hj]

/-- The opposite, or not. -/
theorem isPoint_cswap (hq : q.IsPoint p) {b : ℤ} (hb : b = 0 ∨ b = 1) :
    ge_precomp.IsPoint ⟨(fe_cswap q.Yp q.Ym b).1, (fe_cswap q.Yp q.Ym b).2,
      (fe_cswap q.T2 (fe_neg q.T2) b).1⟩ (if b = 1 then -p else p) := by
  obtain ⟨c, hc, hp⟩ := hq
  have hneg := holds_neg hc.T2 (by decide)
  rw [fe_cswap_eq hc.Yp hc.Ym (by decide) hb, fe_cswap_eq hc.T2 hneg (by decide) hb]
  split_ifs
  · exact ⟨c.neg, ⟨hc.Ym, hc.Yp, hc.Z, hneg⟩, hp.neg⟩
  · exact ⟨c, hc, hp⟩

end Lookup

/-- What four bits count together. -/
def row (b₀ b₁ b₂ b₃ : ℤ) : ℤ :=
  sign b₀ + 2 ^ 32 * sign b₁ + 2 ^ 64 * sign b₂ + 2 ^ 96 * sign b₃

/-- The index for four bits, and whether the entry there is to be subtracted. -/
theorem index_spec {b₀ b₁ b₂ b₃ : ℤ} (h₀ : b₀ = 0 ∨ b₀ = 1) (h₁ : b₁ = 0 ∨ b₁ = 1)
    (h₂ : b₂ = 0 ∨ b₂ = 1) (h₃ : b₃ = 0 ∨ b₃ = 1) {teeth : UInt8}
    (hteeth : teeth = UInt8.ofInt (b₀ + b₁ * 2 ^ 1 + b₂ * 2 ^ 2 + b₃ * 2 ^ 3)) :
    ∃ t : Fin 8, (teeth ^^^ (teeth >>> 3 - 1)) &&& 7 = UInt8.ofNat t ∧
      (((teeth >>> 3) ^^^ 1).toNat = 0 ∧ tooth t = row b₀ b₁ b₂ b₃ ∨
        ((teeth >>> 3) ^^^ 1).toNat = 1 ∧ -tooth t = row b₀ b₁ b₂ b₃) := by
  subst hteeth
  rcases h₀ with rfl | rfl <;> rcases h₁ with rfl | rfl <;> rcases h₂ with rfl | rfl <;>
    rcases h₃ with rfl | rfl <;> decide +kernel

section LookupAdd

variable {comb : Vector ge_precomp 8} {Q P T : Point curve} {p : ge} {tmp_c : ge_precomp}
  {s : Bytes}

/-- What a look-up adds. -/
theorem isPoint_lookup_add (hcomb : ∀ t, (comb.get t).IsPoint (tooth t • Q)) (hp : p.IsPoint P)
    (hT : tmp_c.IsPoint T) (i : ℤ) :
    (lookup_add p tmp_c comb s i).1.IsPoint (P + row (scalar_bit s i) (scalar_bit s (i + 32))
        (scalar_bit s (i + 64)) (scalar_bit s (i + 96)) • Q) ∧
      ∃ T', (lookup_add p tmp_c comb s i).2.IsPoint T' := by
  have hbit (k : ℤ) : scalar_bit s k = 0 ∨ scalar_bit s k = 1 := by
    rw [scalar_bit_eq]
    exact bit_eq_zero_or_one _ _
  obtain ⟨t, hindex, hswap⟩ := index_spec (hbit i) (hbit (i + 32)) (hbit (i + 64)) (hbit (i + 96)) rfl
  have hlookup := isPoint_lookup (t := t) hcomb (List.finRange 8) hT
  rw [if_pos (List.mem_finRange t)] at hlookup
  rw [lookup_add, hindex]
  dsimp only
  rcases hswap with ⟨hhigh, hrow⟩ | ⟨hhigh, hrow⟩
  · have hentry := isPoint_cswap hlookup (b := 0) (.inl rfl)
    rw [if_neg (by decide), hrow] at hentry
    rw [hhigh]
    exact ⟨isPoint_madd hp hentry, _, hentry⟩
  · have hentry := isPoint_cswap hlookup (b := 1) (.inr rfl)
    rw [if_pos rfl, ← neg_zsmul, hrow] at hentry
    rw [hhigh]
    exact ⟨isPoint_madd hp hentry, _, hentry⟩

end LookupAdd

/-! ## The ladder -/

/-- What the eight bits in column `i` count. -/
def column (n i : ℕ) : ℤ := ∑ j ∈ Finset.range 8, 2 ^ (32 * j) * sign (bit n (i + 32 * j : ℕ))

theorem column_eq (n i : ℕ) : column n i =
    row (bit n i) (bit n (i + 32)) (bit n (i + 64)) (bit n (i + 96)) +
      row (bit n (i + 128)) (bit n (i + 128 + 32)) (bit n (i + 128 + 64)) (bit n (i + 128 + 96)) *
        2 ^ 128 := by
  simp only [column, row, Finset.sum_range_succ, Finset.sum_range_zero]
  push_cast
  ring_nf

/-- The two look-ups for a column. -/
def twoLookups (r : ge × ge_precomp) (s : Bytes) (i : ℤ) : ge × ge_precomp :=
  let r := lookup_add r.1 r.2 b_comb_low s i
  lookup_add r.1 r.2 b_comb_high s (i + 128)

/-- The point is a multiple of the base point, and there is a point in the buffer. -/
def HoldsMultiple (r : ge × ge_precomp) (n : ℤ) : Prop :=
  r.1.IsPoint (n • basePoint) ∧ ∃ T, r.2.IsPoint T

section Ladder

variable {r : ge × ge_precomp} {n : ℤ}

theorem holdsMultiple_double : HoldsMultiple r n → HoldsMultiple (ge_double r.1, r.2) (2 * n) := by
  rintro ⟨hp, hT⟩
  rw [HoldsMultiple, two_mul, add_zsmul, ← two_nsmul]
  exact ⟨isPoint_double hp, hT⟩

theorem holdsMultiple_twoLookups (s : Bytes) (hr : HoldsMultiple r n) (i : ℕ) :
    HoldsMultiple (twoLookups r s i) (n + column (leValue s) i) := by
  obtain ⟨hp, T, hT⟩ := hr
  obtain ⟨hlow, T', hT'⟩ := isPoint_lookup_add (s := s) isPoint_b_comb_low hp hT i
  obtain ⟨hhigh, hT''⟩ := isPoint_lookup_add (s := s) isPoint_b_comb_high hlow hT' (i + 128)
  have hpow : (2 ^ 128 : ℤ) • basePoint = 2 ^ 128 • basePoint := natCast_zsmul _ (2 ^ 128)
  rw [HoldsMultiple, column_eq, add_zsmul, add_zsmul, mul_zsmul, hpow, ← add_assoc]
  simp only [scalar_bit_eq] at hhigh
  exact ⟨hhigh, hT''⟩

theorem holdsMultiple_foldl (s : Bytes) (hr : HoldsMultiple r n) (k : ℕ) :
    HoldsMultiple ((List.range k).reverse.foldl
          (fun r (i : ℕ) => twoLookups (ge_double r.1, r.2) s i) r)
      (2 ^ k * n + ∑ i ∈ Finset.range k, 2 ^ i * column (leValue s) i) := by
  induction k generalizing r n with
  | zero => simpa using hr
  | succ k ih =>
    have hstep := ih (holdsMultiple_twoLookups s (holdsMultiple_double hr) k)
    rw [List.range_succ, List.reverse_append, List.reverse_singleton, List.singleton_append,
      List.foldl_cons]
    convert hstep using 1
    rw [Finset.sum_range_succ]
    ring

/-- All 32 columns. -/
theorem sum_column {n : ℕ} (hn : n < 2 ^ 256) :
    ∑ i ∈ Finset.range 32, 2 ^ i * column n i = 2 * n - (2 ^ 256 - 1) := by
  rw [← sum_sign hn, show 256 = 32 * 8 from rfl, ← sum_columns]
  refine Finset.sum_congr rfl fun i _ => ?_
  rw [column, Finset.mul_sum]
  refine Finset.sum_congr rfl fun j _ => ?_
  rw [pow_add, mul_assoc]

end Ladder

/-- The recoded scalar: its bits, as ones and minus ones, denote the scalar modulo the order. -/
theorem recoded_modEq {scalar : Bytes} (hs : scalar.length = 32) :
    2 * (leValue (mul_add scalar half_mod_L half_ones) : ℤ) - (2 ^ 256 - 1) ≡ leValue scalar
      [ZMOD order] := by
  obtain ⟨hval, -⟩ := leValue_mul_add (b := half_mod_L) (c := half_ones) hs rfl rfl
  have hhalf : 2 * (leValue half_mod_L : ℤ) = order + 1 := by decide +kernel
  have hones : 2 * (leValue half_ones : ℤ) - (2 ^ 256 - 1) ≡ 0 [ZMOD order] := by
    decide +kernel
  have hmod : (leValue (mul_add scalar half_mod_L half_ones) : ℤ) ≡
      leValue scalar * leValue half_mod_L + leValue half_ones [ZMOD order] := by
    rw [hval, Int.natCast_mod]
    push_cast
    exact Int.mod_modEq _ _
  calc 2 * (leValue (mul_add scalar half_mod_L half_ones) : ℤ) - (2 ^ 256 - 1)
      ≡ 2 * (leValue scalar * leValue half_mod_L + leValue half_ones) - (2 ^ 256 - 1)
        [ZMOD order] := (hmod.mul_left 2).sub_right _
    _ = leValue scalar + order * leValue scalar +
        (2 * (leValue half_ones : ℤ) - (2 ^ 256 - 1)) := by
        linear_combination leValue scalar * hhalf
    _ ≡ leValue scalar + order * leValue scalar + 0 [ZMOD order] := hones.add_left _
    _ ≡ leValue scalar [ZMOD order] := by
        rw [add_zero]
        exact Int.modEq_iff_dvd.2 ⟨-leValue scalar, by ring⟩

/-- The comb multiplies the base point by the scalar. -/
theorem isPoint_scalarmult_base {scalar : Bytes} (hs : scalar.length = 32) :
    (ge_scalarmult_base scalar).IsPoint (leValue scalar • basePoint) := by
  obtain ⟨hval, -⟩ := leValue_mul_add (b := half_mod_L) (c := half_ones) hs rfl rfl
  have hlt : leValue (mul_add scalar half_mod_L half_ones) < 2 ^ 256 := by
    rw [hval]
    exact (Nat.mod_lt _ (by decide)).trans (by decide)
  have hstart : HoldsMultiple (ge_zero, ⟨fe_1, fe_1, fe_0⟩) 0 := by
    refine ⟨by simpa using isPoint_zero, 0, ⟨1, 1, 1, 0⟩, ⟨holds_1, holds_1, rfl, ?_⟩, ?_⟩
    · exact holds_0.mono (by decide)
    · constructor <;> simp
  have hfirst := holdsMultiple_twoLookups (mul_add scalar half_mod_L half_ones) hstart 31
  have hladder := holdsMultiple_foldl (mul_add scalar half_mod_L half_ones) hfirst 31
  have hsum := sum_column hlt
  rw [Finset.sum_range_succ] at hsum
  rw [zero_add, add_comm, hsum] at hladder
  have hpoint := hladder.1
  rw [zsmul_basePoint_eq_iff.2 (recoded_modEq hs), natCast_zsmul] at hpoint
  exact hpoint

/-- The bytes that are computed are those of the multiple. They tell scalars apart modulo the
    order, and no further. -/
theorem scalarmult_base_bytes {s t : Bytes} (hs : s.length = 32) (ht : t.length = 32) :
    leValue (ge_tobytes (ge_scalarmult_base s)) = encode (leValue s • basePoint) ∧
      (ge_tobytes (ge_scalarmult_base s) = ge_tobytes (ge_scalarmult_base t) ↔
        leValue s ≡ leValue t [MOD order]) := by
  obtain ⟨hval, hlen⟩ := leValue_ge_tobytes (isPoint_scalarmult_base hs)
  obtain ⟨hval', hlen'⟩ := leValue_ge_tobytes (isPoint_scalarmult_base ht)
  refine ⟨hval, ?_⟩
  rw [← leValue_inj (hlen.trans hlen'.symm), hval, hval', encode_injective.eq_iff,
    ← natCast_zsmul, ← natCast_zsmul, zsmul_basePoint_eq_iff, Int.natCast_modEq_iff]

theorem scalarmult_base_bytes_twelve :
    leValue (ge_tobytes (ge_scalarmult_base (12 :: List.replicate 31 0))) =
        encode (leValue (12 :: List.replicate 31 0) • basePoint) ∧
      (ge_tobytes (ge_scalarmult_base (12 :: List.replicate 31 0)) =
          ge_tobytes (ge_scalarmult_base (List.replicate 32 255)) ↔
        leValue (12 :: List.replicate 31 0) ≡ leValue (List.replicate 32 255) [MOD order]) :=
  scalarmult_base_bytes rfl rfl

end MonocypherC
