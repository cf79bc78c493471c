import Mathlib.Data.Nat.Digits.Lemmas
import Mathlib.Tactic

/-!
# Numbers in words of 32 bits

Large numbers are lists of words, the least significant word first (`Limbs.value`).
Loops over such numbers carry from word to word in 64 bits.

* `addRow`: the sum of two numbers (`value_addRow`).
* `mulRow`: a number, and a word times another number (`value_mulRow`); in such a row
  the carry takes at most 32 bits, so that 64 bits are never exceeded (`toNat_mac`).
* `mulRows`: a product by rows, one for every word of a factor (`value_mulRows`), or
  as much of it as fits in some words (`value_truncRows`).
* `value_map_compl`: the complement of a number, by which others are subtracted.
* `Nat.barrett_le`, `Nat.barrett_lt`: a quotient is found by a multiplication, up to one.
-/

namespace Limbs

/-! ## Values -/

/-- The number that words denote. -/
def value (ws : List UInt32) : ℕ := Nat.ofDigits (2 ^ 32) (ws.map UInt32.toNat)

@[simp] theorem value_nil : value [] = 0 := rfl

@[simp] theorem value_cons (w : UInt32) (ws : List UInt32) :
    value (w :: ws) = w.toNat + 2 ^ 32 * value ws := rfl

theorem value_append (ws ws' : List UInt32) :
    value (ws ++ ws') = value ws + 2 ^ (32 * ws.length) * value ws' := by
  simp only [value, List.map_append, Nat.ofDigits_append, List.length_map, pow_mul]

theorem value_zeros (k : ℕ) : value (List.replicate k 0) = 0 := by
  induction k with
  | zero => rfl
  | succ k ih => rw [List.replicate_succ, value_cons, ih]; rfl

theorem value_lt (ws : List UInt32) : value ws < 2 ^ (32 * ws.length) := by
  have hlt := Nat.ofDigits_lt_base_pow_length (b := 2 ^ 32) (l := ws.map UInt32.toNat) (by decide)
    (by simp only [List.mem_map]; rintro _ ⟨w, _, rfl⟩; exact w.toNat_lt)
  rwa [List.length_map, ← pow_mul] at hlt

/-- The number modulo `2 ^ (32 * k)` is in the first `k` words. -/
theorem value_take (ws : List UInt32) {k : ℕ} (hk : k ≤ ws.length) :
    value (ws.take k) = value ws % 2 ^ (32 * k) := by
  have hlen : (ws.take k).length = k := List.length_take_of_le hk
  have hlt := value_lt (ws.take k)
  rw [hlen] at hlt
  conv_rhs => rw [← List.take_append_drop k ws, value_append, hlen, Nat.add_mul_mod_self_left,
    Nat.mod_eq_of_lt hlt]

/-- The quotient by `2 ^ (32 * k)` is in the others. -/
theorem value_drop (ws : List UInt32) {k : ℕ} (hk : k ≤ ws.length) :
    value (ws.drop k) = value ws / 2 ^ (32 * k) := by
  have hlen : (ws.take k).length = k := List.length_take_of_le hk
  have hlt := value_lt (ws.take k)
  rw [hlen] at hlt
  conv_rhs => rw [← List.take_append_drop k ws, value_append, hlen,
    Nat.add_mul_div_left _ _ (Nat.two_pow_pos _), Nat.div_eq_of_lt hlt, Nat.zero_add]

/-- The complement of all words. -/
theorem value_map_compl (ws : List UInt32) :
    value (ws.map (~~~·)) + value ws + 1 = 2 ^ (32 * ws.length) := by
  induction ws with
  | nil => rfl
  | cons w ws ih =>
    have hw := w.toNat_lt
    have hcompl : (~~~w).toNat = 2 ^ 32 - 1 - w.toNat := UInt32.toNat_not w
    rw [List.map_cons, value_cons, value_cons, List.length_cons, Nat.mul_succ, pow_add, ← ih,
      hcompl]
    omega

/-! ## Carries -/

/-- The low word of a sum, and what is carried. -/
theorem toNat_low_add_carry (c : UInt64) :
    c.toUInt32.toNat + 2 ^ 32 * (c >>> 32).toNat = c.toNat := by
  rw [UInt64.toNat_toUInt32, UInt64.toNat_shiftRight, Nat.shiftRight_eq_div_pow]
  exact Nat.mod_add_div _ _

theorem toNat_carry_lt (c : UInt64) : (c >>> 32).toNat < 2 ^ 32 := by
  have hc := c.toNat_lt
  rw [UInt64.toNat_shiftRight, Nat.shiftRight_eq_div_pow]
  change c.toNat / 2 ^ 32 < 2 ^ 32
  omega

/-- A word, a product of words and a carry of 32 bits fit in 64 bits. -/
theorem toNat_mac (p a b : UInt32) {carry : UInt64} (hcarry : carry.toNat < 2 ^ 32) :
    (carry + (p.toUInt64 + a.toUInt64 * b.toUInt64)).toNat =
      carry.toNat + (p.toNat + a.toNat * b.toNat) := by
  have hp := p.toNat_lt
  have ha := a.toNat_lt
  have hb := b.toNat_lt
  have hab : a.toNat * b.toNat ≤ (2 ^ 32 - 1) * (2 ^ 32 - 1) :=
    Nat.mul_le_mul (by omega) (by omega)
  rw [UInt64.toNat_add, UInt64.toNat_add, UInt64.toNat_mul]
  simp only [UInt32.toNat_toUInt64]
  omega

/-- So do two words and a carry. -/
theorem toNat_adc (x y : UInt32) {carry : UInt64} (hcarry : carry.toNat < 2 ^ 32) :
    (carry + (x.toUInt64 + y.toUInt64)).toNat = carry.toNat + (x.toNat + y.toNat) := by
  have hx := x.toNat_lt
  have hy := y.toNat_lt
  rw [UInt64.toNat_add, UInt64.toNat_add]
  simp only [UInt32.toNat_toUInt64]
  omega

/-! ## Sums -/

/-- The sum of two numbers and a carry, word by word, and what is carried out. -/
def addRow : (xs ys : List UInt32) → (carry : UInt64) → List UInt32 × UInt64
  | x :: xs, y :: ys, carry =>
    let carry := carry + (x.toUInt64 + y.toUInt64)
    let (rs, out) := addRow xs ys (carry >>> 32)
    (carry.toUInt32 :: rs, out)
  | _, _, carry => ([], carry)

@[simp] theorem addRow_cons (x y : UInt32) (xs ys : List UInt32) (carry : UInt64) :
    addRow (x :: xs) (y :: ys) carry =
      ((carry + (x.toUInt64 + y.toUInt64)).toUInt32 ::
        (addRow xs ys ((carry + (x.toUInt64 + y.toUInt64)) >>> 32)).1,
        (addRow xs ys ((carry + (x.toUInt64 + y.toUInt64)) >>> 32)).2) := rfl

theorem length_addRow (xs ys : List UInt32) (h : xs.length = ys.length) (carry : UInt64) :
    (addRow xs ys carry).1.length = xs.length := by
  induction xs generalizing ys carry with
  | nil => cases ys <;> rfl
  | cons x xs ih =>
    obtain ⟨y, ys, rfl⟩ := List.exists_cons_of_length_eq_add_one h.symm
    rw [addRow_cons, List.length_cons, ih ys (by simpa using h), List.length_cons]

/-- Adding keeps the number, the carry out counting above all words. -/
theorem value_addRow (xs ys : List UInt32) (h : xs.length = ys.length) (carry : UInt64)
    (hcarry : carry.toNat < 2 ^ 32) :
    value (addRow xs ys carry).1 + 2 ^ (32 * xs.length) * (addRow xs ys carry).2.toNat =
      value xs + value ys + carry.toNat := by
  induction xs generalizing ys carry with
  | nil =>
    obtain rfl := List.length_eq_zero_iff.1 h.symm
    simp [addRow]
  | cons x xs ih =>
    obtain ⟨y, ys, rfl⟩ := List.exists_cons_of_length_eq_add_one h.symm
    have hrest := ih ys (by simpa using h) _
      (toNat_carry_lt (carry + (x.toUInt64 + y.toUInt64)))
    have hword := toNat_low_add_carry (carry + (x.toUInt64 + y.toUInt64))
    rw [toNat_adc x y hcarry] at hword
    rw [addRow_cons, value_cons, value_cons, value_cons, List.length_cons, Nat.mul_succ, pow_add]
    dsimp only
    linear_combination 2 ^ 32 * hrest + hword

/-- Adding the complement, and one, subtracts; the carry out says whether that is possible. -/
theorem addRow_compl (xs ys : List UInt32) (h : xs.length = ys.length) :
    (addRow xs (ys.map (~~~·)) 1).2.toNat = (if value ys ≤ value xs then 1 else 0) ∧
      (value ys ≤ value xs → value (addRow xs (ys.map (~~~·)) 1).1 = value xs - value ys) ∧
      (value (addRow xs (ys.map (~~~·)) 1).1 + value ys) % 2 ^ (32 * xs.length) = value xs := by
  have hlen : xs.length = (ys.map (~~~·)).length := by rw [h, List.length_map]
  have hsum := value_addRow _ _ hlen 1 (by decide)
  have hcompl := value_map_compl ys
  have hlt := value_lt (addRow xs (ys.map (~~~·)) 1).1
  have hxs := value_lt xs
  rw [length_addRow _ _ hlen] at hlt
  rw [← h] at hcompl
  rw [UInt64.toNat_one] at hsum
  generalize (addRow xs (ys.map (~~~·)) 1).2.toNat = out at hsum ⊢
  generalize value (addRow xs (ys.map (~~~·)) 1).1 = r at hsum hlt ⊢
  generalize 2 ^ (32 * xs.length) = B at *
  have hout : out = if value ys ≤ value xs then 1 else 0 := by
    have hle : out ≤ 1 := by nlinarith
    interval_cases out <;> split_ifs <;> omega
  subst hout
  split_ifs at hsum with hle
  · refine ⟨rfl, fun _ => by omega, ?_⟩
    rw [show r + value ys = value xs by omega, Nat.mod_eq_of_lt hxs]
  · refine ⟨rfl, fun h => absurd h hle, ?_⟩
    rw [show r + value ys = value xs + B by omega, Nat.add_mod_right, Nat.mod_eq_of_lt hxs]

/-! ## Products -/

/-- A number, and a word times another number, word by word, and what is carried out. -/
def mulRow (a : UInt32) : (bs ps : List UInt32) → (carry : UInt64) → List UInt32 × UInt64
  | b :: bs, p :: ps, carry =>
    let carry := carry + (p.toUInt64 + a.toUInt64 * b.toUInt64)
    let (rs, out) := mulRow a bs ps (carry >>> 32)
    (carry.toUInt32 :: rs, out)
  | _, _, carry => ([], carry)

@[simp] theorem mulRow_cons (a b p : UInt32) (bs ps : List UInt32) (carry : UInt64) :
    mulRow a (b :: bs) (p :: ps) carry =
      ((carry + (p.toUInt64 + a.toUInt64 * b.toUInt64)).toUInt32 ::
        (mulRow a bs ps ((carry + (p.toUInt64 + a.toUInt64 * b.toUInt64)) >>> 32)).1,
        (mulRow a bs ps ((carry + (p.toUInt64 + a.toUInt64 * b.toUInt64)) >>> 32)).2) := rfl

theorem length_mulRow (a : UInt32) (bs ps : List UInt32) (h : ps.length ≤ bs.length)
    (carry : UInt64) : (mulRow a bs ps carry).1.length = ps.length := by
  induction ps generalizing bs carry with
  | nil => cases bs <;> rfl
  | cons p ps ih =>
    obtain ⟨b, bs, rfl⟩ := List.exists_cons_of_length_pos (l := bs) (Nat.zero_lt_of_lt h)
    rw [mulRow_cons, List.length_cons, ih bs (by simpa using h), List.length_cons]

/-- A row keeps the number, the carry out, which is a word, counting above it. -/
theorem value_mulRow (a : UInt32) (bs ps : List UInt32) (h : ps.length ≤ bs.length)
    (carry : UInt64) (hcarry : carry.toNat < 2 ^ 32) :
    value (mulRow a bs ps carry).1 + 2 ^ (32 * ps.length) * (mulRow a bs ps carry).2.toNat =
        value ps + a.toNat * value (bs.take ps.length) + carry.toNat ∧
      (mulRow a bs ps carry).2.toNat < 2 ^ 32 := by
  induction ps generalizing bs carry with
  | nil => cases bs <;> simpa [mulRow] using hcarry
  | cons p ps ih =>
    obtain ⟨b, bs, rfl⟩ := List.exists_cons_of_length_pos (l := bs) (Nat.zero_lt_of_lt h)
    have hword := toNat_low_add_carry (carry + (p.toUInt64 + a.toUInt64 * b.toUInt64))
    obtain ⟨hrest, hout⟩ := ih bs (Nat.le_of_succ_le_succ h) _
      (toNat_carry_lt (carry + (p.toUInt64 + a.toUInt64 * b.toUInt64)))
    rw [toNat_mac p a b hcarry] at hword
    refine ⟨?_, hout⟩
    rw [mulRow_cons, value_cons, value_cons, List.length_cons, List.take_succ_cons, value_cons,
      Nat.mul_succ, pow_add]
    dsimp only
    linear_combination 2 ^ 32 * hrest + hword

/-- The rows of a product, one for every word of `as` and each a word above the last one.
    The carry of a row is put above it. -/
def mulRows : (as bs ps : List UInt32) → List UInt32
  | [], _, ps => ps
  | a :: as, bs, ps =>
    let (row, carry) := mulRow a bs (ps.take bs.length) 0
    let ps := row ++ carry.toUInt32 :: ps.drop (bs.length + 1)
    ps.take 1 ++ mulRows as bs (ps.drop 1)

/-- Rows add the product, where nothing stands above the number it is added to. -/
theorem value_mulRows (as bs ps : List UInt32) (h : ps.length = bs.length) :
    value (mulRows as bs (ps ++ List.replicate as.length 0)) = value as * value bs + value ps ∧
      (mulRows as bs (ps ++ List.replicate as.length 0)).length = as.length + bs.length := by
  induction as generalizing ps with
  | nil => simp [mulRows, h]
  | cons a as ih =>
    obtain ⟨hvalue, hout⟩ := value_mulRow a bs ps h.le 0 (by decide)
    have hlen := length_mulRow a bs ps h.le 0
    have htake : (ps ++ List.replicate (a :: as).length 0).take bs.length = ps :=
      List.take_left' h
    have hdrop : (ps ++ List.replicate (a :: as).length 0).drop (bs.length + 1) =
        List.replicate as.length (0 : UInt32) := by
      rw [List.drop_append, List.drop_of_length_le (by omega), h, List.drop_replicate]
      simp
    rw [mulRows, htake, hdrop]
    rw [UInt64.toNat_zero, Nat.add_zero, h, List.take_length] at hvalue
    generalize mulRow a bs ps 0 = row at hvalue hout hlen
    obtain ⟨row, carry⟩ := row
    dsimp only at hvalue hout hlen ⊢
    have hcarry : carry.toUInt32.toNat = carry.toNat := Nat.mod_eq_of_lt hout
    -- The first word of the row is done; the next row starts above it.
    obtain ⟨r, rest, hrest⟩ := List.exists_cons_of_ne_nil
      (List.append_ne_nil_of_right_ne_nil row (List.cons_ne_nil carry.toUInt32 []))
    have hfull : value (row ++ [carry.toUInt32]) = value ps + a.toNat * value bs := by
      rw [value_append, value_cons, value_nil, hcarry, hlen, h, Nat.mul_zero, Nat.add_zero, hvalue]
    have hrestlen : rest.length = bs.length := by
      have hcount := congrArg List.length hrest
      simp only [List.length_append, List.length_cons, List.length_nil] at hcount
      omega
    have hsplit : row ++ carry.toUInt32 :: List.replicate as.length 0 =
        r :: (rest ++ List.replicate as.length 0) := by
      rw [← List.cons_append, ← hrest, List.append_assoc, List.singleton_append]
    obtain ⟨hih, hihlen⟩ := ih rest hrestlen
    rw [hsplit, List.take_succ_cons, List.take_zero, List.drop_succ_cons, List.drop_zero,
      List.singleton_append, value_cons, hih, List.length_cons, hihlen, List.length_cons]
    rw [hrest, value_cons] at hfull
    refine ⟨?_, by omega⟩
    rw [value_cons]
    linear_combination hfull

/-- As much of the rows of a product as fits in the words of `ps`. -/
def truncRows : (as bs ps : List UInt32) → List UInt32
  | a :: as, bs, p :: ps =>
    let row := (mulRow a bs (p :: ps) 0).1
    row.take 1 ++ truncRows as bs (row.drop 1)
  | _, _, ps => ps

/-- What does not fit is dropped. -/
theorem value_truncRows (as bs ps : List UInt32) (h : ps.length ≤ bs.length) :
    value (truncRows as bs ps) ≡ value as * value bs + value ps [MOD 2 ^ (32 * ps.length)] ∧
      (truncRows as bs ps).length = ps.length := by
  induction as generalizing ps with
  | nil => simpa [truncRows] using Nat.ModEq.refl _
  | cons a as ih =>
    rcases ps with _ | ⟨p, ps⟩
    · simp [truncRows, Nat.modEq_one]
    have hvalue := (value_mulRow a bs (p :: ps) h 0 (by decide)).1
    have hlen := length_mulRow a bs (p :: ps) h 0
    rw [truncRows]
    generalize mulRow a bs (p :: ps) 0 = row at hvalue hlen
    obtain ⟨row, carry⟩ := row
    obtain ⟨r, row, rfl⟩ := List.exists_cons_of_length_eq_add_one hlen
    have hrow : row.length = ps.length := by simpa using hlen
    obtain ⟨hih, hihlen⟩ := ih row (by rw [hrow]; exact Nat.le_of_succ_le h)
    refine ⟨?_, by simp [hihlen, hrow]⟩
    rw [List.take_succ_cons, List.take_zero, List.drop_succ_cons, List.drop_zero,
      List.singleton_append, value_cons]
    rw [hrow] at hih
    have hpow : 2 ^ (32 * (p :: ps).length) = 2 ^ 32 * 2 ^ (32 * ps.length) := by
      rw [List.length_cons, Nat.mul_succ, pow_add, Nat.mul_comm]
    -- The words of `bs` above those of `ps` are dropped, too.
    have hbs : value bs ≡ value (bs.take (p :: ps).length) [MOD 2 ^ (32 * (p :: ps).length)] := by
      rw [value_take bs h]
      exact (Nat.mod_modEq _ _).symm
    have hhigh : 2 ^ 32 * value (truncRows as bs row) ≡
        2 ^ 32 * (value as * value bs + value row) [MOD 2 ^ (32 * (p :: ps).length)] := by
      rw [hpow]
      exact hih.mul_left' _
    calc r.toNat + 2 ^ 32 * value (truncRows as bs row)
        ≡ r.toNat + 2 ^ 32 * (value as * value bs + value row)
            [MOD 2 ^ (32 * (p :: ps).length)] := hhigh.add_left _
      _ = value (r :: row) + 2 ^ 32 * (value as * value bs) := by rw [value_cons]; ring
      _ ≡ value (r :: row) + 2 ^ (32 * (p :: ps).length) * carry.toNat +
            2 ^ 32 * (value as * value bs) [MOD 2 ^ (32 * (p :: ps).length)] :=
          (Nat.left_modEq_add_iff.2 (dvd_mul_right _ _)).add_right _
      _ = value (p :: ps) + a.toNat * value (bs.take (p :: ps).length) +
            2 ^ 32 * (value as * value bs) := by rw [hvalue, UInt64.toNat_zero, Nat.add_zero]
      _ ≡ value (p :: ps) + a.toNat * value bs + 2 ^ 32 * (value as * value bs)
            [MOD 2 ^ (32 * (p :: ps).length)] :=
          ((hbs.symm.mul_left _).add_left _).add_right _
      _ = value (a :: as) * value bs + value (p :: ps) := by rw [value_cons a]; ring

end Limbs

/-! ## Quotients -/

/-- A quotient, found with the quotient of a power by the divisor, is at most the real one. -/
theorem Nat.barrett_le (X N M : ℕ) : X * (N / M) / N * M ≤ X := by
  rcases Nat.eq_zero_or_pos N with rfl | hN
  · simp
  refine Nat.le_of_mul_le_mul_right ?_ hN
  calc X * (N / M) / N * M * N = X * (N / M) / N * N * M := by ring
    _ ≤ X * (N / M) * M := Nat.mul_le_mul_right _ (Nat.div_mul_le_self _ _)
    _ = X * (N / M * M) := by ring
    _ ≤ X * N := Nat.mul_le_mul_left _ (Nat.div_mul_le_self _ _)

/-- It is less by one at most, for numbers below the power. -/
theorem Nat.barrett_lt {X N M : ℕ} (hX : X < N) (hM : 0 < M) : X < (X * (N / M) / N + 2) * M := by
  have hN : 0 < N := Nat.zero_lt_of_lt hX
  have hquot : X * (N / M) < (X * (N / M) / N + 1) * N := by
    rw [Nat.add_mul, Nat.one_mul, Nat.mul_comm _ N]
    exact Nat.lt_mul_div_succ _ hN |>.trans_eq (by ring)
  have hpower : N < (N / M + 1) * M := by
    rw [Nat.mul_comm]
    exact Nat.lt_mul_div_succ N hM
  generalize X * (N / M) / N = Q at *
  generalize N / M = R at *
  nlinarith
