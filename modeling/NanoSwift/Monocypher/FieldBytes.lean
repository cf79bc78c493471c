import NanoSwift.Monocypher.Field

/-!
# Numbers modulo 2^255 - 19 as bytes

Limbs are read from 32 bytes, of which the top bit is left out (`holds_frombytes`), and written
as the bytes of the number from `0` to `2 ^ 255 - 20` that they denote, whatever the limbs are
(`leValue_tobytes`). Numbers are compared by these bytes (`fe_isequal_eq`).
-/

namespace MonocypherC

open NanoSwift (Bytes)

/-! ## Definitions -/

def fe_frombytes (s : Bytes) : fe :=
  FE_CARRY #v[
    (load32_le s).toNat,
    (load24_le (s.drop 4) <<< 6).toNat,
    (load24_le (s.drop 7) <<< 5).toNat,
    (load24_le (s.drop 10) <<< 3).toNat,
    (load24_le (s.drop 13) <<< 2).toNat,
    (load32_le (s.drop 16)).toNat,
    (load24_le (s.drop 20) <<< 7).toNat,
    (load24_le (s.drop 23) <<< 5).toNat,
    (load24_le (s.drop 26) <<< 4).toNat,
    ((load24_le (s.drop 29) &&& 0x7fffff) <<< 2).toNat]

/-- What is above the bits of the limbs, with `q` added to them. A limb stands with the number
    of its bits. -/
def excess : List (ℕ × ℤ) → ℤ → ℤ
  | [], q => q
  | (k, x) :: t, q => excess t (i32 (q + x) >>> k)

/-- The limbs with `q` added to them, of which each gives what is above its bits to the next. -/
def propagate : List (ℕ × ℤ) → ℤ → List ℤ
  | [], _ => []
  | (k, x) :: t, q =>
    let x := i32 (x + q)
    let q := x >>> k
    i32 (x - i32 (q * 2 ^ k)) :: propagate t q

/-- The limbs, with the numbers of their bits. -/
def limbs (h : fe) : List (ℕ × ℤ) := [26, 25, 26, 25, 26, 25, 26, 25, 26, 25].zip h.toList

/-- Limb `i` as a word. -/
def word (t : List ℤ) (i : ℕ) : UInt32 := UInt32.ofInt (t.getD i 0)

def fe_tobytes (h : fe) : Bytes :=
  let q := i32 (i32 (19 * limb h 9) + 2 ^ 24) >>> (25 : ℕ)
  let q := excess (limbs h) q
  -- `q` is zero if the number is not negative, and `-1` if it is.
  let t := propagate (limbs h) (i32 (q * 19))
  store32_le (word t 0 >>> 0 ||| word t 1 <<< 26) ++
    store32_le (word t 1 >>> 6 ||| word t 2 <<< 19) ++
    store32_le (word t 2 >>> 13 ||| word t 3 <<< 13) ++
    store32_le (word t 3 >>> 19 ||| word t 4 <<< 6) ++
    store32_le (word t 5 >>> 0 ||| word t 6 <<< 25) ++
    store32_le (word t 6 >>> 7 ||| word t 7 <<< 19) ++
    store32_le (word t 7 >>> 13 ||| word t 8 <<< 12) ++
    store32_le (word t 8 >>> 20 ||| word t 9 <<< 6)

/-- Says whether a number is odd. -/
def fe_isodd (f : fe) : ℤ := ((fe_tobytes f).getD 0 0 &&& 1).toNat

/-- Says whether two numbers are equal. -/
def fe_isequal (f g : fe) : ℤ := 1 + crypto_verify32 (fe_tobytes f) (fe_tobytes g)

/-! ## Reading -/

/-- A word of 24 bits, shifted. -/
theorem toNat_load24_le_shiftLeft (s : Bytes) {k : UInt32} (hk : k.toNat ≤ 8) :
    (load24_le s <<< k).toNat = leValue (s.take 3) * 2 ^ k.toNat := by
  have hlt := leValue_lt (s.take 3)
  have hlen : (s.take 3).length ≤ 3 := by rw [List.length_take]; exact Nat.min_le_left _ _
  have hbytes : leValue (s.take 3) < 256 ^ 3 :=
    hlt.trans_le (Nat.pow_le_pow_right (by decide) hlen)
  have hpow : 2 ^ k.toNat ≤ 2 ^ 8 := Nat.pow_le_pow_right (by decide) hk
  rw [UInt32.toNat_shiftLeft, toNat_load24_le, Nat.mod_eq_of_lt (b := 32) (by omega),
    Nat.shiftLeft_eq, Nat.mod_eq_of_lt]
  calc leValue (s.take 3) * 2 ^ k.toNat ≤ (256 ^ 3 - 1) * 2 ^ 8 :=
        Nat.mul_le_mul (by omega) hpow
    _ < 2 ^ 32 := by decide

/-- The bytes of a word of 24 bits without its top bit. -/
theorem toNat_load24_le_top (s : Bytes) :
    ((load24_le s &&& 0x7fffff) <<< 2).toNat = leValue (s.take 3) % 2 ^ 23 * 4 := by
  have hmask : (0x7fffff : UInt32).toNat = 2 ^ 23 - 1 := rfl
  rw [UInt32.toNat_shiftLeft, UInt32.toNat_and, hmask, Nat.and_two_pow_sub_one_eq_mod,
    toNat_load24_le]
  change (leValue (s.take 3) % 2 ^ 23) <<< 2 % 2 ^ 32 = _
  rw [Nat.shiftLeft_eq]
  omega

/-- The bytes of a number, in parts. -/
theorem leValue_take_add {s : Bytes} {k : ℕ} (hk : k ≤ s.length) (n : ℕ) :
    leValue (s.take (k + n)) = leValue (s.take k) + 256 ^ k * leValue ((s.drop k).take n) := by
  rw [List.take_add, leValue_append, List.length_take_of_le hk]

/-- The limbs read denote the bytes but for the top bit. -/
theorem holds_frombytes {s : Bytes} (hs : s.length = 32) :
    Holds (fe_frombytes s) 1 ((leValue s % 2 ^ 255 : ℕ) : F25519) := by
  have hnat : (load32_le s).toNat + 2 ^ 26 * (load24_le (s.drop 4) <<< 6).toNat +
      2 ^ 51 * (load24_le (s.drop 7) <<< 5).toNat + 2 ^ 77 * (load24_le (s.drop 10) <<< 3).toNat +
      2 ^ 102 * (load24_le (s.drop 13) <<< 2).toNat + 2 ^ 128 * (load32_le (s.drop 16)).toNat +
      2 ^ 153 * (load24_le (s.drop 20) <<< 7).toNat + 2 ^ 179 * (load24_le (s.drop 23) <<< 5).toNat +
      2 ^ 204 * (load24_le (s.drop 26) <<< 4).toNat +
      2 ^ 230 * ((load24_le (s.drop 29) &&& 0x7fffff) <<< 2).toNat = leValue s % 2 ^ 255 := by
    have h4 := leValue_take_add (s := s) (k := 4) (by omega) 3
    have h7 := leValue_take_add (s := s) (k := 7) (by omega) 3
    have h10 := leValue_take_add (s := s) (k := 10) (by omega) 3
    have h13 := leValue_take_add (s := s) (k := 13) (by omega) 3
    have h16 := leValue_take_add (s := s) (k := 16) (by omega) 4
    have h20 := leValue_take_add (s := s) (k := 20) (by omega) 3
    have h23 := leValue_take_add (s := s) (k := 23) (by omega) 3
    have h26 := leValue_take_add (s := s) (k := 26) (by omega) 3
    have h29 := leValue_take_add (s := s) (k := 29) (by omega) 3
    have hlt := leValue_lt (s.take 29)
    rw [List.length_take_of_le (by omega)] at hlt
    rw [show 29 + 3 = s.length by omega, List.take_length] at h29
    rw [toNat_load32_le, toNat_load32_le, toNat_load24_le_top,
      toNat_load24_le_shiftLeft _ (by decide), toNat_load24_le_shiftLeft _ (by decide),
      toNat_load24_le_shiftLeft _ (by decide), toNat_load24_le_shiftLeft _ (by decide),
      toNat_load24_le_shiftLeft _ (by decide), toNat_load24_le_shiftLeft _ (by decide),
      toNat_load24_le_shiftLeft _ (by decide)]
    simp only [UInt32.reduceToNat, Nat.reduceAdd] at *
    omega
  have hword : ∀ x : UInt32, |(x.toNat : ℤ)| ≤ 2 ^ 62 := fun x => by
    have hx := x.toNat_lt
    rw [Nat.abs_cast]
    omega
  have heval : eval #v[((load32_le s).toNat : ℤ), (load24_le (s.drop 4) <<< 6).toNat,
      (load24_le (s.drop 7) <<< 5).toNat, (load24_le (s.drop 10) <<< 3).toNat,
      (load24_le (s.drop 13) <<< 2).toNat, (load32_le (s.drop 16)).toNat,
      (load24_le (s.drop 20) <<< 7).toNat, (load24_le (s.drop 23) <<< 5).toNat,
      (load24_le (s.drop 26) <<< 4).toNat,
      ((load24_le (s.drop 29) &&& 0x7fffff) <<< 2).toNat] = ((leValue s % 2 ^ 255 : ℕ) : F25519) := by
    rw [eval_eq, ← hnat]
    push_cast
    rfl
  rw [← heval]
  refine holds_carry fun l => ?_
  fin_cases l <;> exact hword _

/-! ## Writing -/

/-- The number that limbs denote, where each begins at the end of the one before it. -/
def mixed : List (ℕ × ℤ) → ℤ
  | [] => 0
  | (k, x) :: t => x + 2 ^ k * mixed t

/-- The number of bits of all limbs. -/
def totalBits (t : List (ℕ × ℤ)) : ℕ := (t.map Prod.fst).sum

@[simp] theorem mixed_cons (k : ℕ) (x : ℤ) (t : List (ℕ × ℤ)) :
    mixed ((k, x) :: t) = x + 2 ^ k * mixed t := rfl

@[simp] theorem totalBits_cons (k : ℕ) (x : ℤ) (t : List (ℕ × ℤ)) :
    totalBits ((k, x) :: t) = k + totalBits t := rfl

/-- Limbs that are small enough to be added to in words. -/
def SmallLimbs (t : List (ℕ × ℤ)) : Prop := ∀ e ∈ t, 25 ≤ e.1 ∧ e.1 ≤ 26 ∧ |e.2| ≤ 2 ^ 27

theorem SmallLimbs.cons_iff {k : ℕ} {x : ℤ} {t : List (ℕ × ℤ)} :
    SmallLimbs ((k, x) :: t) ↔ (25 ≤ k ∧ k ≤ 26 ∧ |x| ≤ 2 ^ 27) ∧ SmallLimbs t :=
  List.forall_mem_cons

/-- What goes from a limb to the next one is small, too. -/
theorem abs_shiftRight_le {x q : ℤ} {k : ℕ} (hk : 25 ≤ k ∧ k ≤ 26) (hx : |x| ≤ 2 ^ 27)
    (hq : |q| ≤ 2 ^ 10) : i32 (x + q) = x + q ∧ (x + q) >>> k = (x + q) / 2 ^ k ∧
      |(x + q) / 2 ^ k| ≤ 2 ^ 10 ∧ |(x + q) / 2 ^ k * 2 ^ k| < 2 ^ 31 := by
  obtain ⟨hxlow, hxhigh⟩ := abs_le.1 hx
  obtain ⟨hqlow, hqhigh⟩ := abs_le.1 hq
  refine ⟨i32_eq (abs_lt.2 ⟨by omega, by omega⟩), ?_, ?_, ?_⟩
  · rw [Int.shiftRight_eq_div_pow]
    norm_cast
  all_goals
    obtain rfl | rfl : k = 25 ∨ k = 26 := by omega
    all_goals
      first
      | exact abs_le.2 ⟨by omega, by omega⟩
      | exact abs_lt.2 ⟨by omega, by omega⟩

theorem excess_eq {t : List (ℕ × ℤ)} (ht : SmallLimbs t) {q : ℤ} (hq : |q| ≤ 2 ^ 10) :
    excess t q = (mixed t + q) / 2 ^ totalBits t := by
  induction t generalizing q with
  | nil => simp [excess, mixed, totalBits]
  | cons e t ih =>
    obtain ⟨k, x⟩ := e
    obtain ⟨⟨hk, hk', hx⟩, ht⟩ := SmallLimbs.cons_iff.1 ht
    obtain ⟨hsum, hshift, hsmall, -⟩ := abs_shiftRight_le ⟨hk, hk'⟩ hx hq
    have hpos : (2 : ℤ) ^ k ≠ 0 := by positivity
    rw [excess, add_comm q x, hsum, hshift, ih ht hsmall, totalBits_cons, pow_add,
      ← Int.ediv_ediv_of_nonneg (by positivity), mixed_cons]
    congr 1
    rw [show x + 2 ^ k * mixed t + q = x + q + 2 ^ k * mixed t by ring,
      Int.add_mul_ediv_left _ _ hpos, add_comm]

/-- The remainder by a product, in two parts. -/
theorem emod_mul_eq (a : ℤ) {b c : ℤ} (hb : 0 < b) (hc : 0 < c) :
    a % (b * c) = a % b + b * (a / b % c) := by
  have hsplit : a = a % b + b * (a / b % c) + b * c * (a / b / c) := by
    linear_combination -Int.emod_add_mul_ediv a b - b * Int.emod_add_mul_ediv (a / b) c
  have hlow := Int.emod_nonneg a hb.ne'
  have hhigh := Int.emod_lt_of_pos a hb
  have hlow' := Int.emod_nonneg (a / b) hc.ne'
  have hhigh' := Int.emod_lt_of_pos (a / b) hc
  conv_lhs => rw [hsplit, Int.add_mul_emod_self_left]
  exact Int.emod_eq_of_lt (by positivity) (by nlinarith)

/-- The limbs are between zero and their bits then, and denote what is left below all bits. -/
theorem propagate_spec {t : List (ℕ × ℤ)} (ht : SmallLimbs t) {q : ℤ} (hq : |q| ≤ 2 ^ 10) :
    List.Forall₂ (fun k x => 0 ≤ x ∧ x < 2 ^ k) (t.map Prod.fst) (propagate t q) ∧
      mixed ((t.map Prod.fst).zip (propagate t q)) = (mixed t + q) % 2 ^ totalBits t := by
  induction t generalizing q with
  | nil => simp [propagate, mixed, totalBits]
  | cons e t ih =>
    obtain ⟨k, x⟩ := e
    obtain ⟨⟨hk, hk', hx⟩, ht⟩ := SmallLimbs.cons_iff.1 ht
    obtain ⟨hsum, hshift, hsmall, hmul⟩ := abs_shiftRight_le ⟨hk, hk'⟩ hx hq
    obtain ⟨hrange, hvalue⟩ := ih ht hsmall
    have hpos : (0 : ℤ) < 2 ^ k := by positivity
    have hrest : x + q - (x + q) / 2 ^ k * 2 ^ k = (x + q) % 2 ^ k := by
      rw [Int.emod_def, mul_comm]
    have hnonneg := Int.emod_nonneg (x + q) hpos.ne'
    have hlt := Int.emod_lt_of_pos (x + q) hpos
    have hle : (2 : ℤ) ^ k ≤ 2 ^ 26 := pow_le_pow_right₀ (by decide) hk'
    rw [propagate]
    simp only [hsum, hshift, i32_eq hmul, hrest]
    rw [i32_eq (abs_lt.2 ⟨by omega, by omega⟩)]
    refine ⟨List.Forall₂.cons ⟨hnonneg, hlt⟩ hrange, ?_⟩
    have hsplit : x + 2 ^ k * mixed t + q = x + q + 2 ^ k * mixed t := by ring
    rw [List.map_cons, List.zip_cons_cons, mixed_cons, hvalue, totalBits_cons, mixed_cons, pow_add,
      hsplit, emod_mul_eq _ hpos (by positivity), Int.add_mul_emod_self_left, Int.add_mul_ediv_left _ _ hpos.ne',
      add_comm (mixed t)]

/-! ### The sign -/

theorem limbs_eq (h : fe) : limbs h = [(26, limb h 0), (25, limb h 1), (26, limb h 2),
    (25, limb h 3), (26, limb h 4), (25, limb h 5), (26, limb h 6), (25, limb h 7), (26, limb h 8),
    (25, limb h 9)] := by
  have hlist : h.toList = [limb h 0, limb h 1, limb h 2, limb h 3, limb h 4, limb h 5, limb h 6, limb h 7,
      limb h 8, limb h 9] := by
    refine List.ext_getElem (by simp) fun i hi hi' => ?_
    rw [Vector.getElem_toList]
    simp only [Vector.length_toList] at hi
    interval_cases i <;> rfl
  rw [limbs, hlist]
  rfl

theorem totalBits_limbs (h : fe) : totalBits (limbs h) = 255 := by
  rw [limbs_eq]
  rfl

theorem mixed_limbs (h : fe) : mixed (limbs h) = limb h 0 + 2 ^ 26 * limb h 1 + 2 ^ 51 * limb h 2 +
    2 ^ 77 * limb h 3 + 2 ^ 102 * limb h 4 + 2 ^ 128 * limb h 5 + 2 ^ 153 * limb h 6 +
    2 ^ 179 * limb h 7 + 2 ^ 204 * limb h 8 + 2 ^ 230 * limb h 9 := by
  rw [limbs_eq]
  simp only [mixed]
  ring

/-- The limbs denote the number, as an integer. -/
theorem eval_eq_mixed (h : fe) : eval h = (mixed (limbs h) : ℤ) := by
  rw [eval_eq, mixed_limbs]
  rfl

theorem Carried.small {h : fe} (hh : Carried h) : SmallLimbs (limbs h) := by
  intro e he
  obtain ⟨hbits, hlimb⟩ := List.of_mem_zip he
  obtain ⟨i, hi, hget⟩ := List.getElem_of_mem hlimb
  rw [Vector.length_toList] at hi
  have habs : |h[i]| ≤ 2 ^ 27 :=
    (hh ⟨i, hi⟩).trans (by rw [one_mul]; exact (unit_le _).trans (by decide))
  rw [Vector.getElem_toList] at hget
  rw [← hget]
  simp only [List.mem_cons, List.not_mem_nil, or_false] at hbits
  exact ⟨by omega, by omega, habs⟩

/-- A number of carried limbs is zero or more if its top limb is, and the others are far less
    than it. -/
theorem Carried.excess {h : fe} (hh : Carried h) :
    MonocypherC.excess (limbs h) (i32 (i32 (19 * limb h 9) + 2 ^ 24) >>> (25 : ℕ)) =
      (if 0 ≤ mixed (limbs h) then 0 else -1) ∧ |mixed (limbs h)| < 2 ^ 255 - 19 := by
  have h0 : |limb h 0| ≤ 36909875 := hh 0
  have h1 : |limb h 1| ≤ 18454937 := hh 1
  have h2 : |limb h 2| ≤ 36909875 := hh 2
  have h3 : |limb h 3| ≤ 18454937 := hh 3
  have h4 : |limb h 4| ≤ 36909875 := hh 4
  have h5 : |limb h 5| ≤ 18454937 := hh 5
  have h6 : |limb h 6| ≤ 36909875 := hh 6
  have h7 : |limb h 7| ≤ 18454937 := hh 7
  have h8 : |limb h 8| ≤ 36909875 := hh 8
  have h9 : |limb h 9| ≤ 18454937 := hh 9
  rw [abs_le] at h0 h1 h2 h3 h4 h5 h6 h7 h8 h9
  have hq : i32 (i32 (19 * limb h 9) + 2 ^ 24) >>> (25 : ℕ) = (19 * limb h 9 + 2 ^ 24) / 2 ^ 25 := by
    rw [i32_eq (x := 19 * limb h 9) (abs_lt.2 ⟨by omega, by omega⟩),
      i32_eq (abs_lt.2 ⟨by omega, by omega⟩), Int.shiftRight_eq_div_pow]
    norm_cast
  rw [hq, excess_eq hh.small (abs_le.2 ⟨by omega, by omega⟩), totalBits_limbs, mixed_limbs]
  refine ⟨?_, abs_lt.2 ⟨by omega, by omega⟩⟩
  split_ifs <;> omega

/-! ### The bytes -/

/-- What is left of a word when it is shifted out in part, and the next one shifted in. -/
theorem toNat_shift_or {x y r k : UInt32} (hr : r.toNat < 32) (hk : k.toNat < 32)
    (hx : x.toNat / 2 ^ r.toNat < 2 ^ k.toNat) : (x >>> r ||| y <<< k).toNat =
      x.toNat / 2 ^ r.toNat + y.toNat % 2 ^ (32 - k.toNat) * 2 ^ k.toNat := by
  have hpow : 2 ^ 32 = 2 ^ k.toNat * 2 ^ (32 - k.toNat) := by
    rw [← pow_add, Nat.add_sub_cancel' hk.le]
  rw [UInt32.toNat_or, UInt32.toNat_shiftRight, UInt32.toNat_shiftLeft, Nat.mod_eq_of_lt hr,
    Nat.mod_eq_of_lt hk, Nat.shiftRight_eq_div_pow, Nat.shiftLeft_eq, hpow,
    Nat.mul_comm y.toNat, Nat.mul_mod_mul_left, ← or_shiftLeft_eq_add hx, Nat.shiftLeft_eq,
    Nat.mul_comm (2 ^ k.toNat)]

theorem toNat_word {t : List ℤ} {i : ℕ} (h : 0 ≤ t.getD i 0 ∧ t.getD i 0 < 2 ^ 32) :
    ((word t i).toNat : ℤ) = t.getD i 0 := by
  have hmod : (t.getD i 0 % 2 ^ 32).toNat = (t.getD i 0).toNat := by
    rw [Int.emod_eq_of_lt h.1 h.2]
  rw [word, UInt32.ofInt, hmod, UInt32.toNat_ofNat_of_lt' (by change _ < 2 ^ 32; omega)]
  exact Int.toNat_of_nonneg h.1

/-- Ten limbs that are between zero and their bits, as bytes. -/
theorem leValue_pack {w : ℕ → UInt32} (hw : ∀ i < 10, (w i).toNat < 2 ^ (26 - i % 2)) :
    leValue (store32_le (w 0 >>> 0 ||| w 1 <<< 26) ++ store32_le (w 1 >>> 6 ||| w 2 <<< 19) ++
      store32_le (w 2 >>> 13 ||| w 3 <<< 13) ++ store32_le (w 3 >>> 19 ||| w 4 <<< 6) ++
      store32_le (w 5 >>> 0 ||| w 6 <<< 25) ++ store32_le (w 6 >>> 7 ||| w 7 <<< 19) ++
      store32_le (w 7 >>> 13 ||| w 8 <<< 12) ++ store32_le (w 8 >>> 20 ||| w 9 <<< 6)) =
    (w 0).toNat + 2 ^ 26 * (w 1).toNat + 2 ^ 51 * (w 2).toNat + 2 ^ 77 * (w 3).toNat +
      2 ^ 102 * (w 4).toNat + 2 ^ 128 * (w 5).toNat + 2 ^ 153 * (w 6).toNat +
      2 ^ 179 * (w 7).toNat + 2 ^ 204 * (w 8).toNat + 2 ^ 230 * (w 9).toNat := by
  have h0 : (w 0).toNat < 2 ^ 26 := hw 0 (by decide)
  have h1 : (w 1).toNat < 2 ^ 25 := hw 1 (by decide)
  have h2 : (w 2).toNat < 2 ^ 26 := hw 2 (by decide)
  have h3 : (w 3).toNat < 2 ^ 25 := hw 3 (by decide)
  have h4 : (w 4).toNat < 2 ^ 26 := hw 4 (by decide)
  have h5 : (w 5).toNat < 2 ^ 25 := hw 5 (by decide)
  have h6 : (w 6).toNat < 2 ^ 26 := hw 6 (by decide)
  have h7 : (w 7).toNat < 2 ^ 25 := hw 7 (by decide)
  have h8 : (w 8).toNat < 2 ^ 26 := hw 8 (by decide)
  have h9 : (w 9).toNat < 2 ^ 25 := hw 9 (by decide)
  have hlen : ∀ s : Bytes, ∀ x, leValue (s ++ store32_le x) =
      leValue s + 256 ^ s.length * x.toNat := fun s x => by
    rw [leValue_append, leValue_store32_le]
  simp only [hlen, leValue_store32_le, List.length_append, length_store32_le]
  rw [toNat_shift_or (by decide) (by decide) (by change _ / 2 ^ 0 < 2 ^ 26; omega),
    toNat_shift_or (by decide) (by decide) (by change _ / 2 ^ 6 < 2 ^ 19; omega),
    toNat_shift_or (by decide) (by decide) (by change _ / 2 ^ 13 < 2 ^ 13; omega),
    toNat_shift_or (by decide) (by decide) (by change _ / 2 ^ 19 < 2 ^ 6; omega),
    toNat_shift_or (by decide) (by decide) (by change _ / 2 ^ 0 < 2 ^ 25; omega),
    toNat_shift_or (by decide) (by decide) (by change _ / 2 ^ 7 < 2 ^ 19; omega),
    toNat_shift_or (by decide) (by decide) (by change _ / 2 ^ 13 < 2 ^ 12; omega),
    toNat_shift_or (by decide) (by decide) (by change _ / 2 ^ 20 < 2 ^ 6; omega)]
  simp only [UInt32.reduceToNat]
  omega

/-- The bytes written are those of the number from zero to the prime. -/
theorem leValue_tobytes {h : fe} (hh : Carried h) :
    leValue (fe_tobytes h) = (eval h).val ∧ (fe_tobytes h).length = 32 := by
  refine ⟨?_, rfl⟩
  obtain ⟨hsign, habs⟩ := hh.excess
  obtain ⟨hlow, hhigh⟩ := abs_lt.1 habs
  have hp : (p25519 : ℤ) = 2 ^ 255 - 19 := by decide +kernel
  have hval : ((eval h).val : ℤ) = mixed (limbs h) % p25519 := by
    rw [eval_eq_mixed, ZMod.val_intCast]
  rw [fe_tobytes, hsign]
  generalize hq : i32 ((if 0 ≤ mixed (limbs h) then (0 : ℤ) else -1) * 19) = q
  -- Adding `q` takes the number to its range.
  have hqabs : |q| ≤ 2 ^ 10 := by
    rw [← hq]
    split_ifs <;> decide
  obtain ⟨hrange, hvalue⟩ := propagate_spec hh.small hqabs
  have hmod : (mixed (limbs h) + q) % 2 ^ totalBits (limbs h) = mixed (limbs h) % p25519 := by
    rw [totalBits_limbs, hp, ← hq]
    split_ifs with hneg
    · rw [show i32 (0 * 19) = 0 from rfl]
      omega
    · rw [show i32 (-1 * 19) = -19 from rfl]
      omega
  rw [hmod, ← hval] at hvalue
  generalize propagate (limbs h) q = t at hrange hvalue ⊢
  rw [limbs_eq] at hrange hvalue
  simp only [List.map_cons, List.map_nil, List.forall₂_cons_left_iff, List.forall₂_nil_left_iff]
    at hrange
  obtain ⟨x₀, _, h₀, ⟨x₁, _, h₁, ⟨x₂, _, h₂, ⟨x₃, _, h₃, ⟨x₄, _, h₄, ⟨x₅, _, h₅, ⟨x₆, _, h₆,
    ⟨x₇, _, h₇, ⟨x₈, _, h₈, ⟨x₉, _, h₉, rfl, rfl⟩, rfl⟩, rfl⟩, rfl⟩, rfl⟩, rfl⟩, rfl⟩, rfl⟩, rfl⟩,
    rfl⟩ := hrange
  have hword : ∀ i < 10, 0 ≤ [x₀, x₁, x₂, x₃, x₄, x₅, x₆, x₇, x₈, x₉].getD i 0 ∧
      [x₀, x₁, x₂, x₃, x₄, x₅, x₆, x₇, x₈, x₉].getD i 0 < 2 ^ (26 - i % 2) := by
    intro i hi
    interval_cases i <;> assumption
  have hwords : ∀ i < 10, ((word [x₀, x₁, x₂, x₃, x₄, x₅, x₆, x₇, x₈, x₉] i).toNat : ℤ) =
      [x₀, x₁, x₂, x₃, x₄, x₅, x₆, x₇, x₈, x₉].getD i 0 := fun i hi =>
    toNat_word ⟨(hword i hi).1, (hword i hi).2.trans_le (pow_le_pow_right₀ (by decide) (by omega))⟩
  rw [leValue_pack fun i hi => by
    have hlt := (hword i hi).2
    rw [← hwords i hi] at hlt
    exact_mod_cast hlt]
  rw [← Int.natCast_inj, ← hvalue]
  push_cast
  rw [hwords 0 (by decide), hwords 1 (by decide), hwords 2 (by decide), hwords 3 (by decide),
    hwords 4 (by decide), hwords 5 (by decide), hwords 6 (by decide), hwords 7 (by decide),
    hwords 8 (by decide), hwords 9 (by decide)]
  simp only [List.map_cons, List.map_nil, List.zip_cons_cons, List.zip_nil_right, mixed,
    List.getD_cons_zero, List.getD_cons_succ]
  ring

/-- Numbers are told apart by the bytes written. -/
theorem tobytes_eq_iff {f g : fe} (hf : Carried f) (hg : Carried g) :
    fe_tobytes f = fe_tobytes g ↔ eval f = eval g := by
  obtain ⟨hfval, hflen⟩ := leValue_tobytes hf
  obtain ⟨hgval, hglen⟩ := leValue_tobytes hg
  rw [← leValue_inj (hflen.trans hglen.symm), hfval, hgval]
  exact (ZMod.val_injective _).eq_iff

theorem fe_isequal_eq {f g : fe} (hf : Carried f) (hg : Carried g) :
    fe_isequal f g = if eval f = eval g then 1 else 0 := by
  rw [fe_isequal, crypto_verify32_eq (leValue_tobytes hf).2 (leValue_tobytes hg).2]
  simp only [tobytes_eq_iff hf hg]
  split_ifs <;> rfl

theorem fe_isodd_eq {f : fe} (hf : Carried f) : fe_isodd f = ((eval f).val % 2 : ℕ) := by
  obtain ⟨hval, hlen⟩ := leValue_tobytes hf
  rw [fe_isodd, ← hval]
  obtain ⟨x, s, hcons⟩ := List.exists_cons_of_length_eq_add_one hlen
  rw [hcons, List.getD_cons_zero, leValue_cons, UInt8.toNat_and]
  have hone : (1 : UInt8).toNat = 2 ^ 1 - 1 := rfl
  rw [hone, Nat.and_two_pow_sub_one_eq_mod,
    show (x.toNat + 256 * leValue s) % 2 = x.toNat % 2 ^ 1 by omega]

end MonocypherC
