import NanoSwift.Bytes

/-!
# Words

How Monocypher reads words from bytes and writes them, the least significant byte
first, and how it compares bytes in constant time.

A byte array denotes a number (`leValue`); what is loaded is the number of the
bytes read (`toNat_load32_le`, `toNat_load64_le`), and what is stored denotes the
word (`leValue_store32_le`, `leValue_store64_le`). Comparing two arrays says
whether they are equal, by `0` or `-1` (`crypto_verify32_eq`).
-/

namespace MonocypherC

open NanoSwift (Bytes)

/-! ## Numbers -/

/-- The number that bytes denote, the least significant byte first. -/
def leValue (s : Bytes) : ℕ := Nat.ofDigits 256 (s.map UInt8.toNat)

@[simp] theorem leValue_nil : leValue [] = 0 := rfl

@[simp] theorem leValue_cons (x : UInt8) (s : Bytes) :
    leValue (x :: s) = x.toNat + 256 * leValue s := rfl

theorem leValue_append (s t : Bytes) :
    leValue (s ++ t) = leValue s + 256 ^ s.length * leValue t := by
  simp [leValue, Nat.ofDigits_append]

theorem leValue_append_zeros (s : Bytes) (k : ℕ) :
    leValue (s ++ List.replicate k 0) = leValue s := by
  simp [leValue, Nat.ofDigits_append_replicate_zero]

theorem leValue_lt (s : Bytes) : leValue s < 256 ^ s.length := by
  have hlt := Nat.ofDigits_lt_base_pow_length (b := 256) (l := s.map UInt8.toNat) (by decide)
    (by simp only [List.mem_map]; rintro _ ⟨x, _, rfl⟩; exact x.toNat_lt)
  rwa [List.length_map] at hlt

/-- The bytes of one length are told apart by their numbers. -/
theorem leValue_inj {s t : Bytes} (hlen : s.length = t.length) :
    leValue s = leValue t ↔ s = t := by
  refine ⟨fun h => ?_, congrArg leValue⟩
  induction s generalizing t with
  | nil => exact (List.length_eq_zero_iff.1 hlen.symm).symm
  | cons x s ih =>
    obtain ⟨y, t, rfl⟩ := List.exists_cons_of_length_pos (l := t) (by rw [← hlen]; simp)
    rw [leValue_cons, leValue_cons] at h
    have hx := x.toNat_lt
    have hy := y.toNat_lt
    have hxy : x = y := UInt8.toNat_inj.1 (by omega)
    rw [hxy, ih (by simpa using hlen) (by omega)]

/-- A byte as a digit of the number. -/
theorem toNat_getD (s : Bytes) (i : ℕ) : (s.getD i 0).toNat = leValue s / 256 ^ i % 256 := by
  induction s generalizing i with
  | nil => simp
  | cons x s ih =>
    have hx := x.toNat_lt
    rw [leValue_cons]
    cases i with
    | zero =>
      rw [List.getD_cons_zero]
      omega
    | succ i =>
      have hdiv : (x.toNat + 256 * leValue s) / 256 = leValue s := by omega
      rw [List.getD_cons_succ, ih, pow_succ', ← Nat.div_div_eq_div_mul, hdiv]

/-- A byte changed in place. -/
theorem leValue_modify {s : Bytes} {i : ℕ} (hi : i < s.length) (f : UInt8 → UInt8) :
    leValue (s.modify i f) + 256 ^ i * (s.getD i 0).toNat =
      leValue s + 256 ^ i * (f (s.getD i 0)).toNat := by
  induction s generalizing i with
  | nil => exact absurd hi (Nat.not_lt_zero i)
  | cons x s ih =>
    cases i with
    | zero =>
      simp only [List.modify_zero_cons, List.getD_cons_zero, leValue_cons]
      ring
    | succ i =>
      have hs := ih (Nat.lt_of_succ_lt_succ hi)
      simp only [List.modify_succ_cons, List.getD_cons_succ, leValue_cons, pow_succ']
      linear_combination 256 * hs

/-- Or-ing what is above all bits of a number adds it. -/
theorem or_shiftLeft_eq_add {x k : ℕ} (hx : x < 2 ^ k) (y : ℕ) : x ||| y <<< k = x + y * 2 ^ k := by
  rw [Nat.or_comm, ← Nat.shiftLeft_add_eq_or_of_lt hx, Nat.shiftLeft_eq, Nat.add_comm]

theorem toNat_or_shiftLeft_32 {x y k : UInt32} (hx : x.toNat < 2 ^ k.toNat) (hk : k.toNat < 32)
    (hy : y.toNat * 2 ^ k.toNat < 2 ^ 32) :
    (x ||| y <<< k).toNat = x.toNat + y.toNat * 2 ^ k.toNat := by
  rw [UInt32.toNat_or, UInt32.toNat_shiftLeft, Nat.mod_eq_of_lt hk, Nat.mod_eq_of_lt,
    or_shiftLeft_eq_add hx]
  rwa [Nat.shiftLeft_eq]

theorem toNat_or_shiftLeft_64 {x y k : UInt64} (hx : x.toNat < 2 ^ k.toNat) (hk : k.toNat < 64)
    (hy : y.toNat * 2 ^ k.toNat < 2 ^ 64) :
    (x ||| y <<< k).toNat = x.toNat + y.toNat * 2 ^ k.toNat := by
  rw [UInt64.toNat_or, UInt64.toNat_shiftLeft, Nat.mod_eq_of_lt hk, Nat.mod_eq_of_lt,
    or_shiftLeft_eq_add hx]
  rwa [Nat.shiftLeft_eq]

/-! ## Loading -/

/-- The three bytes at `s`. -/
def load24_le (s : Bytes) : UInt32 :=
  (s.getD 0 0).toUInt32 ||| (s.getD 1 0).toUInt32 <<< 8 ||| (s.getD 2 0).toUInt32 <<< 16

/-- The four bytes at `s`. -/
def load32_le (s : Bytes) : UInt32 :=
  (s.getD 0 0).toUInt32 ||| (s.getD 1 0).toUInt32 <<< 8 ||| (s.getD 2 0).toUInt32 <<< 16 |||
    (s.getD 3 0).toUInt32 <<< 24

/-- The eight bytes at `s`. -/
def load64_le (s : Bytes) : UInt64 :=
  (load32_le s).toUInt64 ||| (load32_le (s.drop 4)).toUInt64 <<< 32

/-- The first `size` words at `src`. -/
def load32_le_buf (src : Bytes) (size : ℕ) : List UInt32 :=
  (List.range size).map fun i => load32_le (src.drop (4 * i))

/-- The first `size` words at `src`. -/
def load64_le_buf (src : Bytes) (size : ℕ) : Vector UInt64 size :=
  Vector.ofFn fun i => load64_le (src.drop (8 * i))

theorem leValue_take_four (s : Bytes) : leValue (s.take 4) =
    (s.getD 0 0).toNat + (s.getD 1 0).toNat * 2 ^ 8 + (s.getD 2 0).toNat * 2 ^ 16 +
      (s.getD 3 0).toNat * 2 ^ 24 := by
  rcases s with _ | ⟨a, _ | ⟨b, _ | ⟨c, _ | ⟨d, s⟩⟩⟩⟩ <;> simp <;> ring

theorem leValue_take_three (s : Bytes) : leValue (s.take 3) =
    (s.getD 0 0).toNat + (s.getD 1 0).toNat * 2 ^ 8 + (s.getD 2 0).toNat * 2 ^ 16 := by
  rcases s with _ | ⟨a, _ | ⟨b, _ | ⟨c, s⟩⟩⟩ <;> simp <;> ring

theorem toNat_or_bytes_24 (a b c : UInt8) :
    (a.toUInt32 ||| b.toUInt32 <<< 8 ||| c.toUInt32 <<< 16).toNat =
      a.toNat + b.toNat * 2 ^ 8 + c.toNat * 2 ^ 16 := by
  have ha := a.toNat_lt
  have hb := b.toNat_lt
  have hc := c.toNat_lt
  have hlow : (a.toUInt32 ||| b.toUInt32 <<< 8).toNat = a.toNat + b.toNat * 2 ^ 8 :=
    toNat_or_shiftLeft_32 ha (by decide) (by change b.toNat * 2 ^ 8 < 2 ^ 32; omega)
  rw [← hlow]
  refine toNat_or_shiftLeft_32 ?_ (by decide) (by change c.toNat * 2 ^ 16 < 2 ^ 32; omega)
  change _ < 2 ^ 16
  omega

theorem toNat_load24_le (s : Bytes) : (load24_le s).toNat = leValue (s.take 3) := by
  rw [leValue_take_three, load24_le, toNat_or_bytes_24]

theorem toNat_load32_le (s : Bytes) : (load32_le s).toNat = leValue (s.take 4) := by
  have hlow := toNat_or_bytes_24 (s.getD 0 0) (s.getD 1 0) (s.getD 2 0)
  have h₀ := (s.getD 0 0).toNat_lt
  have h₁ := (s.getD 1 0).toNat_lt
  have h₂ := (s.getD 2 0).toNat_lt
  have h₃ := (s.getD 3 0).toNat_lt
  rw [leValue_take_four, load32_le, ← hlow]
  refine toNat_or_shiftLeft_32 ?_ (by decide) ?_
  · rw [hlow]
    change _ < 2 ^ 24
    omega
  · change (s.getD 3 0).toNat * 2 ^ 24 < 2 ^ 32
    omega

theorem toNat_load64_le (s : Bytes) : (load64_le s).toNat = leValue (s.take 8) := by
  have hlow := toNat_load32_le s
  have hhigh := toNat_load32_le (s.drop 4)
  have hlowlt := (load32_le s).toNat_lt
  have hhighlt := (load32_le (s.drop 4)).toNat_lt
  have hor : (load64_le s).toNat = (load32_le s).toNat + (load32_le (s.drop 4)).toNat * 2 ^ 32 :=
    toNat_or_shiftLeft_64 (x := (load32_le s).toUInt64) (k := 32) hlowlt (by decide)
      (by change (load32_le (s.drop 4)).toNat * 2 ^ 32 < 2 ^ 64; omega)
  rw [hor, hlow, hhigh]
  rcases le_or_gt 4 s.length with hlen | hlen
  · have hsplit : s.take 8 = s.take 4 ++ (s.drop 4).take 4 := List.take_add (i := 4) (j := 4)
    rw [hsplit, leValue_append, List.length_take_of_le hlen]
    ring
  · rw [List.drop_of_length_le hlen.le, List.take_of_length_le hlen.le, List.take_nil,
      List.take_of_length_le (i := 8) (by omega), leValue_nil, Nat.zero_mul, Nat.add_zero]

/-! ## Storing -/

/-- The bytes of a word of 32 bits. -/
def store32_le (x : UInt32) : Bytes :=
  [(x &&& 0xff).toUInt8, ((x >>> 8) &&& 0xff).toUInt8, ((x >>> 16) &&& 0xff).toUInt8,
    ((x >>> 24) &&& 0xff).toUInt8]

/-- The bytes of a word of 64 bits. -/
def store64_le (x : UInt64) : Bytes := store32_le x.toUInt32 ++ store32_le (x >>> 32).toUInt32

/-- The bytes of words. -/
def store32_le_buf (src : List UInt32) : Bytes := src.flatMap store32_le

/-- The bytes of words. -/
def store64_le_buf (src : List UInt64) : Bytes := src.flatMap store64_le

@[simp] theorem length_store32_le (x : UInt32) : (store32_le x).length = 4 := rfl

@[simp] theorem length_store64_le (x : UInt64) : (store64_le x).length = 8 := rfl

theorem leValue_store32_le (x : UInt32) : leValue (store32_le x) = x.toNat := by
  have hx := x.toNat_lt
  simp only [store32_le, leValue_cons, leValue_nil, UInt32.toNat_toUInt8, UInt32.toNat_and,
    UInt32.toNat_shiftRight]
  have hff : (0xff : UInt32).toNat = 2 ^ 8 - 1 := rfl
  simp only [hff, Nat.and_two_pow_sub_one_eq_mod, Nat.shiftRight_eq_div_pow]
  change x.toNat % 2 ^ 8 % 2 ^ 8 + 256 * (x.toNat / 2 ^ 8 % 2 ^ 8 % 2 ^ 8 +
    256 * (x.toNat / 2 ^ 16 % 2 ^ 8 % 2 ^ 8 +
    256 * (x.toNat / 2 ^ 24 % 2 ^ 8 % 2 ^ 8 + 256 * 0))) = x.toNat
  omega

theorem leValue_store64_le (x : UInt64) : leValue (store64_le x) = x.toNat := by
  have hx := x.toNat_lt
  have hhigh : (x >>> 32).toNat = x.toNat / 2 ^ 32 := by
    rw [UInt64.toNat_shiftRight, Nat.shiftRight_eq_div_pow]
    rfl
  rw [store64_le, leValue_append, leValue_store32_le, leValue_store32_le, length_store32_le,
    UInt64.toNat_toUInt32, UInt64.toNat_toUInt32, hhigh]
  omega

theorem length_store32_le_buf (src : List UInt32) :
    (store32_le_buf src).length = 4 * src.length := by
  rw [store32_le_buf, List.length_flatMap]
  simp [Nat.mul_comm]

theorem length_store64_le_buf (src : List UInt64) :
    (store64_le_buf src).length = 8 * src.length := by
  rw [store64_le_buf, List.length_flatMap]
  simp [Nat.mul_comm]

/-! ## Alignment -/

/-- What `x` lacks to the next multiple of `pow_2`. -/
def align (x pow_2 : UInt64) : UInt64 := (~~~x + 1) &&& (pow_2 - 1)

theorem toNat_align {x pow_2 : UInt64} {k : ℕ} (hk : k ≤ 64) (h : pow_2.toNat = 2 ^ k) :
    (align x pow_2).toNat = (2 ^ 64 - x.toNat) % 2 ^ k := by
  have hx := x.toNat_lt
  have hpos : 1 ≤ 2 ^ k := Nat.one_le_two_pow
  have hdvd : 2 ^ k ∣ 2 ^ 64 := Nat.pow_dvd_pow 2 hk
  have hneg : (~~~x + 1).toNat = (2 ^ 64 - x.toNat) % 2 ^ 64 := by
    rw [UInt64.toNat_add, UInt64.toNat_not, UInt64.toNat_one]
    change (2 ^ 64 - 1 - x.toNat + 1) % 2 ^ 64 = _
    congr 1
    omega
  have hmask : (pow_2 - 1).toNat = 2 ^ k - 1 := by
    rw [UInt64.toNat_sub_of_le _ _ (by rw [UInt64.le_iff_toNat_le, h]; exact hpos), h]
    rfl
  rw [align, UInt64.toNat_and, hneg, hmask, Nat.and_two_pow_sub_one_eq_mod,
    Nat.mod_mod_of_dvd _ hdvd]

/-! ## Comparing -/

/-- The number of a word as a signed one of 32 bits. -/
def toInt32 (x : UInt64) : ℤ := (x.toNat : ℤ).bmod (2 ^ 32)

/-- Compares a word with zero. -/
def neq0 (diff : UInt64) : ℤ :=
  let half := diff >>> 32 ||| diff.toUInt32.toUInt64
  toInt32 (((1 : UInt64) &&& ((half - 1) >>> 32)) - 1)

def x16 (a b : Bytes) : UInt64 :=
  (load64_le a ^^^ load64_le b) ||| (load64_le (a.drop 8) ^^^ load64_le (b.drop 8))

def x32 (a b : Bytes) : UInt64 := x16 a b ||| x16 (a.drop 16) (b.drop 16)

/-- Compares 32 bytes. -/
def crypto_verify32 (a b : Bytes) : ℤ := neq0 (x32 a b)

/-- The comparison with zero says whether the word is zero. -/
theorem neq0_eq (diff : UInt64) : neq0 diff = if diff = 0 then 0 else -1 := by
  have hdiff := diff.toNat_lt
  have hhalf : (diff >>> 32 ||| diff.toUInt32.toUInt64).toNat =
      diff.toNat / 2 ^ 32 ||| diff.toNat % 2 ^ 32 := by
    rw [UInt64.toNat_or, UInt64.toNat_shiftRight, Nat.shiftRight_eq_div_pow]
    rfl
  have hlt : (diff >>> 32 ||| diff.toUInt32.toUInt64).toNat < 2 ^ 32 := by
    rw [hhalf]
    exact Nat.or_lt_two_pow (by omega) (Nat.mod_lt _ (by decide))
  by_cases hzero : diff = 0
  · rw [hzero]
    decide
  · -- Some bit of a half is set, so that nothing is borrowed.
    have hne : (diff >>> 32 ||| diff.toUInt32.toUInt64).toNat ≠ 0 := by
      rw [hhalf, Ne, Nat.or_eq_zero_iff]
      intro h
      exact hzero (UInt64.toNat_inj.1 (by rw [UInt64.toNat_zero]; omega))
    have hborrow : ((diff >>> 32 ||| diff.toUInt32.toUInt64) - 1) >>> 32 = 0 := by
      rw [← UInt64.toNat_inj, UInt64.toNat_shiftRight, Nat.shiftRight_eq_div_pow,
        UInt64.toNat_sub_of_le _ _ (by rw [UInt64.le_iff_toNat_le, UInt64.toNat_one]; omega),
        UInt64.toNat_one]
      exact Nat.div_eq_of_lt (by change _ < 2 ^ 32; omega)
    rw [if_neg hzero]
    simp only [neq0, hborrow]
    decide

theorem xor_load64_le_eq_zero {a b : Bytes} (ha : 8 ≤ a.length) (hb : 8 ≤ b.length) :
    load64_le a ^^^ load64_le b = 0 ↔ a.take 8 = b.take 8 := by
  rw [UInt64.xor_eq_zero_iff, ← UInt64.toNat_inj, toNat_load64_le, toNat_load64_le]
  exact leValue_inj (by rw [List.length_take_of_le ha, List.length_take_of_le hb])

theorem take_add_eq_take_add_iff {α : Type*} {a b : List α} (k n : ℕ) :
    a.take (k + n) = b.take (k + n) ↔
      a.take k = b.take k ∧ (a.drop k).take n = (b.drop k).take n := by
  refine ⟨fun h => ⟨?_, ?_⟩, fun ⟨h, h'⟩ => by rw [List.take_add, List.take_add, h, h']⟩
  · have htake := congrArg (List.take k) h
    rwa [List.take_take, List.take_take, Nat.min_eq_left (Nat.le_add_right k n)] at htake
  · have hdrop := congrArg (List.drop k) h
    rwa [List.drop_take, List.drop_take, Nat.add_sub_cancel_left] at hdrop

theorem x16_eq_zero_iff {a b : Bytes} (ha : 16 ≤ a.length) (hb : 16 ≤ b.length) :
    x16 a b = 0 ↔ a.take 16 = b.take 16 := by
  rw [x16, UInt64.or_eq_zero_iff, xor_load64_le_eq_zero (by omega) (by omega),
    xor_load64_le_eq_zero (by rw [List.length_drop]; omega) (by rw [List.length_drop]; omega)]
  exact (take_add_eq_take_add_iff 8 8).symm

theorem x32_eq_zero_iff {a b : Bytes} (ha : 32 ≤ a.length) (hb : 32 ≤ b.length) :
    x32 a b = 0 ↔ a.take 32 = b.take 32 := by
  rw [x32, UInt64.or_eq_zero_iff, x16_eq_zero_iff (by omega) (by omega),
    x16_eq_zero_iff (by rw [List.length_drop]; omega) (by rw [List.length_drop]; omega)]
  exact (take_add_eq_take_add_iff 16 16).symm

/-- Comparing says whether the bytes are equal. -/
theorem crypto_verify32_eq {a b : Bytes} (ha : a.length = 32) (hb : b.length = 32) :
    crypto_verify32 a b = if a = b then 0 else -1 := by
  rw [crypto_verify32, neq0_eq]
  simp only [x32_eq_zero_iff ha.ge hb.ge, List.take_of_length_le ha.le,
    List.take_of_length_le hb.le]

end MonocypherC
