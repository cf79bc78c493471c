import NanoSwift.Monocypher.Comb

/-!
# Sums of two multiples

To check a signature, multiples of two points are summed (`ge_double_scalarmult_vartime`). Both
scalars are gone through once, from the top; windows of bits that differ from their neighbours
become odd digits, which stand where the lowest bit of the window does (`slide_step`). A digit
found is thus kept until its place comes (`Slides`).
-/

namespace MonocypherC

open NanoSwift (Bytes)
open Edwards SignedDigits

/-! ## Definitions -/

/-- A word of 16 bits with a sign. -/
def i16 (x : ℤ) : ℤ := x.bmod (2 ^ 16)

/-- A word of 8 bits with a sign. -/
def i8 (x : ℤ) : ℤ := x.bmod (2 ^ 8)

structure slide_ctx where
  /-- Where the next digit stands. -/
  next_index : ℤ
  /-- The next digit. -/
  next_digit : ℤ
  /-- Where to check for a new window. -/
  next_check : UInt8

/-- The highest bit that is set, from bit `i` on down, and zero if there is none. -/
def slide_init.top (scalar : Bytes) : ℕ → ℕ
  | 0 => 0
  | i + 1 => if scalar_bit scalar (i + 1 : ℕ) = 0 then top scalar i else i + 1

def slide_init (scalar : Bytes) : slide_ctx :=
  let i := slide_init.top scalar 252
  ⟨-1, -1, UInt8.ofNat (i + 1)⟩

/-- The lowest bit of a word. -/
def slide_step.lsb (v : ℤ) : Int32 :=
  let v := Int32.ofInt v
  v &&& (~~~v + 1)

/-- The logarithm of a power of two, up to `2 ^ 7`. -/
def slide_step.log2 (lsb : Int32) : ℕ :=
  (if lsb &&& 0xAA = 0 then 0 else 1) ||| (if lsb &&& 0xCC = 0 then 0 else 1) <<< 1 |||
    (if lsb &&& 0xF0 = 0 then 0 else 1) <<< 2

/-- The value of the window of `w` bits from bit `i` on down. -/
def slide_step.value (scalar : Bytes) (w i : ℕ) : ℤ :=
  let v := -(scalar_bit scalar i * 2 ^ (w - 1))
  let v := (List.range (w - 1)).foldl
    (fun v (j : ℕ) => v + scalar_bit scalar (i - (w - 1 : ℕ) + j) * 2 ^ j) v
  v + scalar_bit scalar (i - w)

/-- The digit at place `i`, and the state after it. -/
def slide_step (ctx : slide_ctx) (width i : ℕ) (scalar : Bytes) : slide_ctx × ℤ :=
  let ctx :=
    if i = ctx.next_check.toNat then
      if scalar_bit scalar i = scalar_bit scalar (i - 1) then
        { ctx with next_check := ctx.next_check - 1 }
      else
        let w := min width (i + 1)
        let v := slide_step.value scalar w i
        let s := slide_step.log2 (slide_step.lsb v)
        { next_index := i16 (i - (w - 1 : ℕ) + s)
          next_digit := i8 (v >>> s)
          next_check := ctx.next_check - UInt8.ofNat w }
    else ctx
  (ctx, if i = ctx.next_index then ctx.next_digit else 0)

def P_W_WIDTH : ℕ := 3

def B_W_WIDTH : ℕ := 5

/-- The odd multiples of a point. -/
def cP (P : ge) : ℕ → ge_cached
  | 0 => ge_cache P
  | i + 1 => ge_cache (ge_add (ge_double P) (cP P i))

theorem windowIndex_lt (n : ℕ) : n % 8 < 8 := Nat.mod_lt _ (by decide)

def windowIndex (n : ℕ) : Fin 8 := ⟨n % 8, windowIndex_lt n⟩

/-- Adds the multiple by a digit. -/
def addCached (P sum : ge) (digit : ℤ) : ge :=
  if 0 < digit then ge_add sum (cP P (digit / 2).toNat)
  else if digit < 0 then ge_sub sum (cP P (-digit / 2).toNat)
  else sum

/-- Adds the multiple of the base point by a digit. -/
def addWindow (sum : ge) (digit : ℤ) : ge :=
  if 0 < digit then ge_madd sum (b_window.get (windowIndex (digit / 2).toNat))
  else if digit < 0 then ge_msub sum (b_window.get (windowIndex (-digit / 2).toNat))
  else sum

structure LadderState where
  sum : ge
  p_slide : slide_ctx
  b_slide : slide_ctx

/-- A round of the loop. -/
def ladderStep (P : ge) (p b : Bytes) (st : LadderState) (i : ℕ) : LadderState :=
  let sum := ge_double st.sum
  let p_step := slide_step st.p_slide P_W_WIDTH i p
  let b_step := slide_step st.b_slide B_W_WIDTH i b
  let sum := addCached P sum p_step.2
  let sum := addWindow sum b_step.2
  ⟨sum, p_step.1, b_step.1⟩

def ge_double_scalarmult_vartime (P : ge) (p b : Bytes) : ge :=
  let p_slide := slide_init p
  let b_slide := slide_init b
  let i := max p_slide.next_check.toNat b_slide.next_check.toNat
  ((List.range (i + 1)).reverse.foldl (ladderStep P p b) ⟨ge_zero, p_slide, b_slide⟩).sum

/-- The point `[s]B - [h_ram]pk`, unless the key is not one or `s` is too large. -/
def ge_r_check (s h_ram pk : Bytes) : Option Bytes :=
  let s32 := load32_le_buf s 8
  (ge_frombytes_vartime pk).bind fun A =>
    if is_above_l s32 = 0 then
      let A : ge := ⟨fe_neg A.X, A.Y, A.Z, fe_neg A.T⟩
      let A := ge_double_scalarmult_vartime A h_ram s
      some (ge_tobytes A)
    else none

/-! ## Windows -/

theorem foldl_add (f : ℕ → ℤ) (m : ℕ) (v : ℤ) :
    (List.range m).foldl (fun v j => v + f j) v = v + ∑ j ∈ Finset.range m, f j := by
  induction m with
  | zero => simp
  | succ m ih =>
    rw [List.range_succ, List.foldl_append, ih, Finset.sum_range_succ, List.foldl_cons,
      List.foldl_nil, add_assoc]

theorem value_eq (scalar : Bytes) {w i : ℕ} (hw : 0 < w) (hi : w ≤ i + 1) :
    slide_step.value scalar w i = window (leValue scalar) w (i + 1 - w : ℕ) := by
  rw [slide_step.value, foldl_add, window, scalar_bit_eq, scalar_bit_eq]
  simp only [scalar_bit_eq]
  have hbottom : ((i + 1 - w : ℕ) : ℤ) = i - (w - 1 : ℕ) := by omega
  rw [hbottom, show (i : ℤ) - (w - 1 : ℕ) + w - 1 = i by omega,
    show (i : ℤ) - (w - 1 : ℕ) - 1 = i - w by omega]

/-- The digit of a window is what is left of its value without the factors two. -/
theorem log2_lsb {v : ℤ} (hne : v ≠ 0) (habs : |v| ≤ 2 ^ 4) :
    v = (v >>> slide_step.log2 (slide_step.lsb v)) * 2 ^ slide_step.log2 (slide_step.lsb v) ∧
      (v >>> slide_step.log2 (slide_step.lsb v)) % 2 = 1 := by
  have hall : ∀ v ∈ Finset.Icc (-2 ^ 4 : ℤ) (2 ^ 4), v ≠ 0 →
      v = (v >>> slide_step.log2 (slide_step.lsb v)) * 2 ^ slide_step.log2 (slide_step.lsb v) ∧
        (v >>> slide_step.log2 (slide_step.lsb v)) % 2 = 1 := by
    decide +kernel
  exact hall v (Finset.mem_Icc.2 (abs_le.1 habs)) hne

/-- The digit fits the width of the windows, and its place is in the window. -/
theorem digit_bounds {v digit : ℤ} {w width s : ℕ} (hw : 0 < w) (hwidth : w ≤ width)
    (htwo : 2 ≤ width) (hv : v = digit * 2 ^ s) (hodd : digit % 2 = 1)
    (habs : |v| ≤ 2 ^ (w - 1)) : s < w ∧ |digit| < 2 ^ (width - 1) := by
  have hpow : (0 : ℤ) < 2 ^ s := by positivity
  have hdigit : 1 ≤ |digit| := Int.one_le_abs (by omega)
  rw [hv, abs_mul, abs_of_pos hpow] at habs
  have hs : (2 : ℤ) ^ s ≤ 2 ^ (w - 1) := (le_mul_of_one_le_left hpow.le hdigit).trans habs
  have hle : |digit| ≤ 2 ^ (w - 1) := (le_mul_of_one_le_right (abs_nonneg _) hpow).trans habs
  have hmono : (2 : ℤ) ^ (w - 1) ≤ 2 ^ (width - 1) :=
    pow_le_pow_right₀ (by decide) (by omega)
  refine ⟨?_, lt_of_le_of_ne (hle.trans hmono) fun heq => ?_⟩
  · have := (pow_le_pow_iff_right₀ (by decide : (1 : ℤ) < 2)).1 hs
    omega
  · -- An odd digit is no power of two but one.
    obtain ⟨m, rfl⟩ : ∃ m, width = m + 2 := ⟨width - 2, by omega⟩
    rw [show m + 2 - 1 = m + 1 by omega, pow_succ] at heq
    rcases abs_choice digit with habs | habs <;> rw [habs] at heq <;> omega

/-! ## Starting -/

/-- Above the bit found, all are zero. -/
theorem lt_of_top (scalar : Bytes) (i : ℕ) (h : leValue scalar < 2 ^ (i + 1)) :
    slide_init.top scalar i ≤ i ∧ leValue scalar < 2 ^ (slide_init.top scalar i + 1) := by
  induction i with
  | zero => exact ⟨le_rfl, h⟩
  | succ i ih =>
    rw [slide_init.top]
    split_ifs with hbit
    · have hlt : leValue scalar < 2 ^ (i + 1) := by
        rw [scalar_bit_eq, bit_natCast] at hbit
        have hdiv : leValue scalar / 2 ^ (i + 1) < 2 :=
          Nat.div_lt_of_lt_mul (by rwa [← pow_succ])
        have hzero : leValue scalar / 2 ^ (i + 1) % 2 = 0 := by exact_mod_cast hbit
        rw [Nat.mod_eq_of_lt hdiv] at hzero
        exact (Nat.div_eq_zero_iff_lt (by positivity)).1 hzero
      have hi := ih hlt
      exact ⟨by omega, hi.2⟩
    · exact ⟨le_rfl, h⟩

/-! ## Sliding -/

/-- Until place `i`, the digits denote `A`, in units of `2 ^ i`. What is left to be counted are
    the differences below some bit `c`, and perhaps a digit that has been found already. -/
structure Slides (n width : ℕ) (ctx : slide_ctx) (i : ℕ) (A : ℤ) : Prop where
  exists_check : ∃ c : ℕ, c ≤ i ∧ ctx.next_check.toNat = (c + 255) % 256 ∧
    ((∀ j : ℕ, j < i → ctx.next_index ≠ j) ∧ A * 2 ^ i = tail n c ∨
      ∃ j : ℕ, c ≤ j ∧ j < i ∧ ctx.next_index = j ∧ ctx.next_digit % 2 = 1 ∧
        |ctx.next_digit| < 2 ^ (width - 1) ∧ A * 2 ^ i + ctx.next_digit * 2 ^ j = tail n c)

/-- Digits are odd, if not zero. -/
def IsDigit (width : ℕ) (digit : ℤ) : Prop :=
  digit = 0 ∨ digit % 2 = 1 ∧ |digit| < 2 ^ (width - 1)

theorem slides_init {scalar : Bytes} (h : leValue scalar < 2 ^ 253) (width : ℕ) {i : ℕ}
    (hi : (slide_init scalar).next_check.toNat ≤ i) :
    Slides (leValue scalar) width (slide_init scalar) (i + 1) 0 := by
  obtain ⟨hle, hlt⟩ := lt_of_top scalar 252 h
  have hcheck : (slide_init scalar).next_check.toNat = slide_init.top scalar 252 + 1 := by
    simp only [slide_init, UInt8.toNat_ofNat']
    omega
  refine ⟨slide_init.top scalar 252 + 2, by omega, by omega, .inl ⟨fun j _ => ?_, ?_⟩⟩
  · simp only [slide_init]
    omega
  · rw [zero_mul, tail_eq_zero hlt]

/-- With no digit to come, there is none at this place. -/
theorem slides_none {n width i c : ℕ} {ctx : slide_ctx} {B : ℤ} (hc : c ≤ i)
    (hcheck : ctx.next_check.toNat = (c + 255) % 256)
    (hindex : ∀ j : ℕ, j < i + 1 → ctx.next_index ≠ j) (htail : B * 2 ^ i = tail n c) :
    IsDigit width (if (i : ℤ) = ctx.next_index then ctx.next_digit else 0) ∧
      Slides n width ctx i (B + if (i : ℤ) = ctx.next_index then ctx.next_digit else 0) := by
  rw [if_neg (hindex i (Nat.lt_succ_self i)).symm, add_zero]
  exact ⟨.inl rfl, c, hc, hcheck, .inl ⟨fun j hj => hindex j (hj.trans (Nat.lt_succ_self i)), htail⟩⟩

/-- A digit that has been found stands here or below. -/
theorem slides_found {n width i c j : ℕ} {ctx : slide_ctx} {B : ℤ} (hcj : c ≤ j) (hji : j ≤ i)
    (hcheck : ctx.next_check.toNat = (c + 255) % 256) (hindex : ctx.next_index = j)
    (hodd : ctx.next_digit % 2 = 1) (hdigit : |ctx.next_digit| < 2 ^ (width - 1))
    (htail : B * 2 ^ i + ctx.next_digit * 2 ^ j = tail n c) :
    IsDigit width (if (i : ℤ) = ctx.next_index then ctx.next_digit else 0) ∧
      Slides n width ctx i (B + if (i : ℤ) = ctx.next_index then ctx.next_digit else 0) := by
  rcases Nat.lt_or_eq_of_le hji with hlt | rfl
  · rw [if_neg (by omega), add_zero]
    exact ⟨.inl rfl, c, by omega, hcheck, .inr ⟨j, hcj, hlt, hindex, hodd, hdigit, htail⟩⟩
  · rw [if_pos hindex.symm]
    exact ⟨.inr ⟨hodd, hdigit⟩, c, hcj, hcheck,
      .inl ⟨fun k hk => by omega, by rw [add_mul, htail]⟩⟩

/-- The state after a window has been found. -/
theorem slide_step_eq {scalar : Bytes} {width i w s : ℕ} {ctx : slide_ctx} {v digit : ℤ}
    (hcurrent : i = ctx.next_check.toNat)
    (hbits : ¬scalar_bit scalar i = scalar_bit scalar (i - 1)) (hw : min width (i + 1) = w)
    (hv : slide_step.value scalar w i = v) (hs : slide_step.log2 (slide_step.lsb v) = s)
    (hdigit : v >>> s = digit) : slide_step ctx width i scalar =
      (⟨i16 (i - (w - 1 : ℕ) + s), i8 digit, ctx.next_check - UInt8.ofNat w⟩,
        if i = i16 (i - (w - 1 : ℕ) + s) then i8 digit else 0) := by
  subst hv hs hdigit
  rw [slide_step, if_pos hcurrent, if_neg hbits, hw]

/-- Where the bits differ, a window is found, and an odd digit in it that counts the differences
    of the window. -/
theorem slide_step_window {scalar : Bytes} {width i : ℕ} {ctx : slide_ctx} (h2 : 2 ≤ width)
    (h5 : width ≤ 5) (hi : i < 255) (hcurrent : i = ctx.next_check.toNat)
    (hbits : ¬scalar_bit scalar i = scalar_bit scalar (i - 1)) :
    ∃ (c j : ℕ) (digit : ℤ) (check : UInt8), c ≤ j ∧ j ≤ i ∧ check.toNat = (c + 255) % 256 ∧
      digit % 2 = 1 ∧ |digit| < 2 ^ (width - 1) ∧
      tail (leValue scalar) (i + 1) + digit * 2 ^ j = tail (leValue scalar) c ∧
      slide_step ctx width i scalar =
        (⟨j, digit, check⟩, if (i : ℤ) = (j : ℤ) then digit else 0) := by
  obtain ⟨w, hw⟩ : ∃ w, w = min width (i + 1) := ⟨_, rfl⟩
  have hwpos : 0 < w := by omega
  have hcast : ((i + 1 - w : ℕ) : ℤ) + w - 1 = i := by omega
  have htop : bit (leValue scalar) ((i + 1 - w : ℕ) + w - 1) ≠
      bit (leValue scalar) ((i + 1 - w : ℕ) + w - 1 - 1) := by
    rwa [hcast, ← scalar_bit_eq, ← scalar_bit_eq]
  have htail := tail_window (leValue scalar) (i + 1 - w) hwpos
  -- The value of the window is a power of two times an odd digit.
  obtain ⟨hne, habs⟩ := window_ne_zero hwpos htop
  obtain ⟨hvalue, hodd⟩ := log2_lsb hne (habs.trans (pow_le_pow_right₀ (by decide) (by omega)))
  rw [← value_eq scalar hwpos (by omega)] at hne habs hvalue hodd htail
  generalize hv : slide_step.value scalar w i = v at hne habs hvalue hodd htail
  generalize hlog : slide_step.log2 (slide_step.lsb v) = s at hvalue hodd
  generalize hshift : v >>> s = digit at hvalue hodd
  obtain ⟨hs, hdigit⟩ := digit_bounds hwpos (by omega) h2 hvalue hodd habs
  rw [Nat.sub_add_cancel (by omega : w ≤ i + 1), hvalue, mul_left_comm, ← pow_add] at htail
  -- The place and the digit fit into the words that hold them.
  have hplace : i16 (i - (w - 1 : ℕ) + s) = (i + 1 - w + s : ℕ) := by
    rw [i16, Int.bmod_eq_of_le] <;> omega
  have hsmall : i8 digit = digit := by
    have hlt := hdigit.trans_le
      (pow_le_pow_right₀ (by decide : (1 : ℤ) ≤ 2) (by omega : width - 1 ≤ 4))
    rw [abs_lt] at hlt
    rw [i8, Int.bmod_eq_of_le] <;> omega
  have hcheck : (ctx.next_check - UInt8.ofNat w).toNat = (i + 1 - w + 255) % 256 := by
    rw [UInt8.toNat_sub, ← hcurrent, UInt8.toNat_ofNat']
    omega
  refine ⟨i + 1 - w, i + 1 - w + s, digit, _, by omega, by omega, hcheck, hodd, hdigit,
    htail.symm, ?_⟩
  rw [slide_step_eq hcurrent hbits hw.symm hv hlog hshift, hplace, hsmall]

/-- A round: the digits go on denoting what has been counted. -/
theorem slides_step {scalar : Bytes} {width i : ℕ} {ctx : slide_ctx} {A : ℤ} (h2 : 2 ≤ width)
    (h5 : width ≤ 5) (hi : i < 255) (h : Slides (leValue scalar) width ctx (i + 1) A) :
    IsDigit width (slide_step ctx width i scalar).2 ∧
      Slides (leValue scalar) width (slide_step ctx width i scalar).1 i
        (2 * A + (slide_step ctx width i scalar).2) := by
  obtain ⟨c, hc, hcheck, hstate⟩ := h
  have hpow : A * 2 ^ (i + 1) = 2 * A * 2 ^ i := by ring
  rw [hpow] at hstate
  by_cases hcurrent : i = ctx.next_check.toNat
  · -- The check is here: no digit is kept, as its place would be above.
    obtain rfl : c = i + 1 := by omega
    have hnone : (∀ j : ℕ, j < i + 1 → ctx.next_index ≠ j) ∧
        2 * A * 2 ^ i = tail (leValue scalar) (i + 1) := by
      rcases hstate with hnone | ⟨j, hcj, hji, -⟩
      · exact hnone
      · omega
    obtain ⟨hindex, htail⟩ := hnone
    by_cases hbits : scalar_bit scalar i = scalar_bit scalar (i - 1)
    · -- A difference of zero.
      have hcheck' : (ctx.next_check - 1).toNat = (i + 255) % 256 := by
        rw [UInt8.toNat_sub, ← hcurrent]
        change (2 ^ 8 - 1 + i) % 2 ^ 8 = _
        omega
      rw [slide_step, if_pos hcurrent, if_pos hbits]
      rw [scalar_bit_eq, scalar_bit_eq] at hbits
      exact slides_none le_rfl hcheck' hindex
        (by rw [htail, tail_succ _ i, hbits, sub_self, mul_zero, add_zero])
    · -- A window.
      obtain ⟨c, j, digit, check, hcj, hji, hcheck', hodd, hdigit, hwindow, hstep⟩ :=
        slide_step_window h2 h5 hi hcurrent hbits
      have hindex : slide_ctx.next_index ⟨j, digit, check⟩ = j := rfl
      rw [← htail] at hwindow
      rw [hstep]
      exact slides_found hcj hji hcheck' hindex hodd hdigit hwindow
  · -- No check here; a digit found before may have its place here.
    rw [slide_step, if_neg hcurrent]
    rcases hstate with ⟨hindex, htail⟩ | ⟨j, hcj, hji, hindex, hodd, hdigit, htail⟩
    · exact slides_none (by omega) hcheck hindex htail
    · exact slides_found hcj (Nat.le_of_lt_succ hji) hcheck hindex hodd hdigit htail

/-- After the last round, the digits denote the scalar. -/
theorem Slides.eq {n width : ℕ} {ctx : slide_ctx} {A : ℤ} (h : Slides n width ctx 0 A) :
    A = n := by
  obtain ⟨c, hc, -, ⟨-, htail⟩ | ⟨j, -, hj, -⟩⟩ := h
  · obtain rfl : c = 0 := Nat.le_zero.1 hc
    rwa [pow_zero, mul_one, tail_zero] at htail
  · exact absurd hj (Nat.not_lt_zero j)

/-! ## Adding digits -/

section Digits

variable {P sum : ge} {p q : Point curve} {width : ℕ} {digit : ℤ}

theorem isPoint_cP (hP : P.IsPoint p) (i : ℕ) : (cP P i).IsPoint ((2 * i + 1) • p) := by
  induction i with
  | zero => simpa [cP] using isPoint_cache hP
  | succ i ih =>
    have hsum := isPoint_cache (isPoint_add (isPoint_double hP) ih)
    rwa [← add_nsmul, show 2 + (2 * i + 1) = 2 * (i + 1) + 1 by ring] at hsum

/-- An odd digit in terms of the index of its multiple. -/
theorem exists_index (hodd : digit % 2 = 1) :
    (0 < digit → ((2 * (digit / 2).toNat + 1 : ℕ) : ℤ) = digit) ∧
      (digit < 0 → ((2 * (-digit / 2).toNat + 1 : ℕ) : ℤ) = -digit) := by
  omega

/-- No digit leads out of the tables: there are `2 ^ (width - 2)` multiples in them. -/
theorem index_lt (hwidth : 2 ≤ width) (hdigit : IsDigit width digit) :
    (digit / 2).toNat < 2 ^ (width - 2) ∧ (-digit / 2).toNat < 2 ^ (width - 2) := by
  have hpow : (2 : ℤ) ^ (width - 1) = 2 * (2 ^ (width - 2) : ℕ) := by
    rw [Nat.cast_pow, Nat.cast_ofNat, ← pow_succ']
    congr 1
    omega
  have hpos : 0 < 2 ^ (width - 2) := Nat.two_pow_pos _
  rcases hdigit with rfl | ⟨_, hlt⟩
  · simp
  · rw [hpow, abs_lt] at hlt
    omega

theorem isPoint_addCached (hP : P.IsPoint p) (hsum : sum.IsPoint q) (hdigit : IsDigit width digit) :
    (addCached P sum digit).IsPoint (q + digit • p) := by
  rw [addCached]
  rcases hdigit with rfl | ⟨hodd, -⟩
  · simpa using hsum
  · obtain ⟨hpos, hneg⟩ := exists_index hodd
    split_ifs with h h'
    · have hadd := isPoint_add hsum (isPoint_cP hP (digit / 2).toNat)
      rwa [← natCast_zsmul, hpos h] at hadd
    · have hsub := isPoint_sub hsum (isPoint_cP hP (-digit / 2).toNat)
      rwa [← natCast_zsmul, hneg h', neg_zsmul, sub_neg_eq_add] at hsub
    · omega

theorem isPoint_addWindow (hsum : sum.IsPoint q) (hdigit : IsDigit B_W_WIDTH digit) :
    (addWindow sum digit).IsPoint (q + digit • basePoint) := by
  rw [addWindow]
  obtain ⟨hlt, hlt'⟩ := index_lt (by decide) hdigit
  rcases hdigit with rfl | ⟨hodd, -⟩
  · simpa using hsum
  · obtain ⟨hpos, hneg⟩ := exists_index hodd
    have hindex {n : ℕ} (hn : n < 8) : (windowIndex n).val = n := Nat.mod_eq_of_lt hn
    split_ifs with h h'
    · have hadd := isPoint_madd hsum (isPoint_b_window (windowIndex (digit / 2).toNat))
      rwa [hindex hlt, ← natCast_zsmul, hpos h] at hadd
    · have hsub := isPoint_msub hsum (isPoint_b_window (windowIndex (-digit / 2).toNat))
      rwa [hindex hlt', ← natCast_zsmul, hneg h', neg_zsmul, sub_neg_eq_add] at hsub
    · omega

end Digits

/-! ## The ladder -/

/-- Until place `i`, the sum is that of the multiples by the digits. -/
def LadderHolds (pt : Point curve) (p b : Bytes) (st : LadderState) (i : ℕ) : Prop :=
  ∃ A B : ℤ, Slides (leValue p) P_W_WIDTH st.p_slide i A ∧
    Slides (leValue b) B_W_WIDTH st.b_slide i B ∧ st.sum.IsPoint (A • pt + B • basePoint)

section Ladder

variable {P : ge} {pt : Point curve} {p b : Bytes}

theorem ladderHolds_step (hP : P.IsPoint pt) {st : LadderState} {i : ℕ} (hi : i < 255)
    (h : LadderHolds pt p b st (i + 1)) : LadderHolds pt p b (ladderStep P p b st i) i := by
  obtain ⟨A, B, hA, hB, hsum⟩ := h
  obtain ⟨hp_digit, hA'⟩ := slides_step (by decide) (by decide) hi hA
  obtain ⟨hb_digit, hB'⟩ := slides_step (by decide) (by decide) hi hB
  refine ⟨_, _, hA', hB', ?_⟩
  have hdouble := isPoint_addWindow (isPoint_addCached hP (isPoint_double hsum) hp_digit) hb_digit
  have hpoint (m n : ℤ) : 2 • (A • pt + B • basePoint) + m • pt + n • basePoint =
      (2 * A + m) • pt + (2 * B + n) • basePoint := by
    rw [add_zsmul, add_zsmul, two_mul, two_mul, add_zsmul, add_zsmul, two_nsmul]
    abel
  rwa [hpoint] at hdouble

theorem ladderHolds_foldl (hP : P.IsPoint pt) {st : LadderState} {i : ℕ} (hi : i ≤ 255)
    (h : LadderHolds pt p b st i) :
    LadderHolds pt p b ((List.range i).reverse.foldl (ladderStep P p b) st) 0 := by
  induction i generalizing st with
  | zero => exact h
  | succ i ih =>
    rw [List.range_succ, List.reverse_append, List.reverse_singleton, List.singleton_append,
      List.foldl_cons]
    exact ih (by omega) (ladderHolds_step hP hi h)

theorem next_check_le {scalar : Bytes} (h : leValue scalar < 2 ^ 253) :
    (slide_init scalar).next_check.toNat ≤ 253 := by
  have hle := (lt_of_top scalar 252 h).1
  simp only [slide_init, UInt8.toNat_ofNat']
  omega

/-- The sum of the multiples by two scalars of at most 253 bits. -/
theorem isPoint_double_scalarmult (hP : P.IsPoint pt) (hp : leValue p < 2 ^ 253)
    (hb : leValue b < 2 ^ 253) :
    (ge_double_scalarmult_vartime P p b).IsPoint (leValue p • pt + leValue b • basePoint) := by
  have hcp := next_check_le hp
  have hcb := next_check_le hb
  have hstart : LadderHolds pt p b ⟨ge_zero, slide_init p, slide_init b⟩
      (max (slide_init p).next_check.toNat (slide_init b).next_check.toNat + 1) :=
    ⟨0, 0, slides_init hp _ (le_max_left _ _), slides_init hb _ (le_max_right _ _),
      by simpa using isPoint_zero⟩
  obtain ⟨A, B, hA, hB, hsum⟩ := ladderHolds_foldl hP (by omega) hstart
  rw [hA.eq, hB.eq, natCast_zsmul, natCast_zsmul] at hsum
  exact hsum

/-- The ladder that takes different steps for different scalars agrees with the comb, which does
    not. -/
theorem double_scalarmult_eq_scalarmult_base {k p b c : Bytes} (hk : k.length = 32)
    (hc : c.length = 32) (hp : leValue p < 2 ^ 253) (hb : leValue b < 2 ^ 253)
    (h : leValue c ≡ leValue p * leValue k + leValue b [MOD order]) :
    ge_tobytes (ge_double_scalarmult_vartime (ge_scalarmult_base k) p b) =
      ge_tobytes (ge_scalarmult_base c) := by
  obtain ⟨hval, hlen⟩ :=
    leValue_ge_tobytes (isPoint_double_scalarmult (isPoint_scalarmult_base hk) hp hb)
  obtain ⟨hval', hlen'⟩ := leValue_ge_tobytes (isPoint_scalarmult_base hc)
  rw [← leValue_inj (hlen.trans hlen'.symm), hval, hval', ← mul_nsmul', ← add_nsmul,
    ← nsmul_basePoint_mod (leValue c), h, nsmul_basePoint_mod]

theorem double_scalarmult_eq_scalarmult_base_ten :
    ge_tobytes (ge_double_scalarmult_vartime (ge_scalarmult_base (2 :: List.replicate 31 0))
        (3 :: List.replicate 31 0) (4 :: List.replicate 31 0)) =
      ge_tobytes (ge_scalarmult_base (10 :: List.replicate 31 0)) :=
  double_scalarmult_eq_scalarmult_base rfl rfl (by decide +kernel) (by decide +kernel)
    (by decide +kernel)

end Ladder

/-! ## Checking -/

theorem isPoint_neg {h : ge} {p : Point curve} (hp : h.IsPoint p) :
    ge.IsPoint ⟨fe_neg h.X, h.Y, h.Z, fe_neg h.T⟩ (-p) := by
  obtain ⟨P, hP, hrep⟩ := hp
  refine ⟨⟨-P.X, P.Y, P.Z, -P.T⟩, ⟨holds_neg hP.X (by decide), hP.Y, hP.Z,
    holds_neg hP.T (by decide)⟩, hrep.Z_ne_zero, ?_, hrep.Y_eq, ?_⟩
  · rw [hrep.X_eq, Point.neg_x, neg_mul]
  · rw [hrep.T_eq, Point.neg_x, Point.neg_y]
    ring

section Checking

variable {s h_ram pk : Bytes} {A : ge}

theorem ge_r_check_of_below (h : ge_frombytes_vartime pk = some A)
    (habove : is_above_l (load32_le_buf s 8) = 0) :
    ge_r_check s h_ram pk = some (ge_tobytes (ge_double_scalarmult_vartime
      ⟨fe_neg A.X, A.Y, A.Z, fe_neg A.T⟩ h_ram s)) := by
  rw [ge_r_check, h, Option.bind_some]
  exact if_pos habove

theorem ge_r_check_of_above (habove : is_above_l (load32_le_buf s 8) = 1) :
    ge_r_check s h_ram pk = none := by
  have hne : ¬(1 : UInt64) = 0 := by decide
  rw [ge_r_check, habove]
  cases ge_frombytes_vartime pk with
  | none => rw [Option.bind_none]
  | some A =>
    rw [Option.bind_some]
    exact if_neg hne

theorem is_above_l_words (hs : s.length = 32) :
    is_above_l (load32_le_buf s 8) = if order ≤ leValue s then 1 else 0 := by
  rw [is_above_l_eq (length_load32_le_buf s 8), value_load32_le_buf, List.take_of_length_le hs.le]

theorem order_le : order ≤ 2 ^ 253 := by decide +kernel

/-- What is computed from a signature, for a key that gives a point. -/
theorem ge_r_check_of_decodes {A : Point curve} (hs : s.length = 32) (hpk : pk.length = 32)
    (hram : leValue h_ram < order) (hA : Decodes pk A) (hlt : leValue s < order) :
    ∃ R, ge_r_check s h_ram pk = some R ∧ R.length = 32 ∧
      leValue R = encode (leValue s • basePoint - leValue h_ram • A) := by
  have habove := is_above_l_words hs
  rw [if_neg hlt.not_ge] at habove
  rcases ge_frombytes_cases hpk with ⟨h, A', hret, hh, hA'⟩ | ⟨-, hnone⟩
  · obtain rfl := hA'.unique hA
    have hsum := isPoint_double_scalarmult (isPoint_neg hh) (hram.trans_le order_le)
      (hlt.trans_le order_le)
    rw [smul_neg, neg_add_eq_sub] at hsum
    obtain ⟨hval, hlen⟩ := leValue_ge_tobytes hsum
    exact ⟨_, ge_r_check_of_below hret habove, hlen, hval⟩
  · exact absurd hA (hnone A)

/-- Without a point, and for scalars that are not reduced, nothing is computed. -/
theorem ge_r_check_eq_none (hs : s.length = 32) (hpk : pk.length = 32)
    (h : (∀ A, ¬Decodes pk A) ∨ order ≤ leValue s) : ge_r_check s h_ram pk = none := by
  rcases ge_frombytes_cases hpk with ⟨_, A, -, -, hA⟩ | ⟨hret, -⟩
  · have habove := is_above_l_words hs
    rw [if_pos (h.resolve_left fun hnone => hnone A hA)] at habove
    exact ge_r_check_of_above habove
  · rw [ge_r_check, hret, Option.bind_none]

end Checking

end MonocypherC
