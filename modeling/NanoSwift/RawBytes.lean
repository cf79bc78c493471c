import NanoSwift.Amount
import NanoSwift.Bytes

/-!
# Bytes of amounts

`rawBytes` turns an amount into base 256 by way of its printed form: the
characters that are ASCII digits are collected, grouped by six from the right
(`groupDigits`), and divided by 256 until nothing is left (`divideBytes`).

* Both loops keep the number (`value_groupDigits`, `divideBytes_eq`), so that the
  bytes of a numeral are the shortest base-256 numeral of its value
  (`digitsBytes_eq`).
* The bytes of an amount denote what the ASCII digits in its printed form do
  (`bytesValue_rawBytes`): those of an integer printed as a decimal numeral are
  the bytes of that integer (`rawBytes_of_rawString`). With Latin digits, they are
  the bytes of the nearest integer without its sign (`rawBytes_of_isLatin`), and
  so neither the sign nor a fraction is told by them.
* No number on the way there reaches 256 millions (`intermediateValues_lt`).
-/

namespace NanoSwift

/-! ## Grouping digits by six -/

/-- The variables of the loop that groups digits. -/
structure Grouping where
  ints : List ℕ
  rem : ℕ
  index : ℕ
  accum : ℕ

/-- One round of the loop, for one digit. -/
def groupStep (s : Grouping) (digit : ℕ) : Grouping :=
  let accum := s.accum * 10 + digit
  let rem := s.rem - 1
  if rem = 0 then
    { rem := 6, ints := s.ints.set s.index accum, index := s.index + 1, accum := 0 }
  else { s with accum := accum, rem := rem }

/-- The digits in groups of six from the right, as numbers. -/
def groupDigits (digits : List ℕ) : List ℕ :=
  let numdigits := digits.length
  let rem := if numdigits % 6 = 0 then 6 else numdigits % 6
  let start : Grouping :=
    { ints := List.replicate ((numdigits + 5) / 6) 0, rem := rem, index := 0, accum := 0 }
  (digits.foldl groupStep start).ints

/-- The invariant of the loop: `done` are the groups written so far, the others
    are still zero; together with the group in progress and the digits left, they
    denote `n`. -/
structure GroupInv (n : ℕ) (done : List ℕ) (s : Grouping) (rest : List ℕ) : Prop where
  ints_eq : s.ints = done ++ List.replicate ((rest.length + 5) / 6) 0
  index_eq : s.index = done.length
  rem_pos : 1 ≤ s.rem
  rem_le : s.rem ≤ 6
  rem_mod : s.rem % 6 = rest.length % 6
  accum_lt : s.accum < 10 ^ (6 - s.rem)
  done_lt : ∀ d ∈ done, d < 1000000
  value_eq : (Radix.value 1000000 done * 10 ^ (6 - s.rem) + s.accum) * 10 ^ rest.length +
    Radix.value 10 rest = n

theorem groupInv_start (digits : List ℕ) :
    GroupInv (Radix.value 10 digits) []
      { ints := List.replicate ((digits.length + 5) / 6) 0
        rem := if digits.length % 6 = 0 then 6 else digits.length % 6
        index := 0
        accum := 0 } digits where
  ints_eq := rfl
  index_eq := rfl
  rem_pos := by dsimp only; split <;> omega
  rem_le := by dsimp only; split <;> omega
  rem_mod := by dsimp only; split <;> omega
  accum_lt := Nat.pow_pos (by decide)
  done_lt := by simp
  value_eq := by simp

section groupStep

variable {n : ℕ} {done : List ℕ} {s : Grouping} {d : ℕ} {rest : List ℕ}

/-- The last digit of a group puts the group in the place of the first zero. -/
theorem GroupInv.step_complete (h : GroupInv n done s (d :: rest)) (hd : d < 10)
    (hrem : s.rem = 1) : GroupInv n (done ++ [s.accum * 10 + d]) (groupStep s d) rest := by
  have hmod := h.rem_mod
  have hacc := h.accum_lt
  have hval := h.value_eq
  rw [hrem] at hmod hacc hval
  rw [List.length_cons] at hmod
  rw [List.length_cons, Radix.value_cons, pow_succ] at hval
  have hcount : (rest.length + 1 + 5) / 6 = (rest.length + 5) / 6 + 1 := by omega
  simp only [groupStep, hrem, Nat.sub_self, if_true]
  exact {
    ints_eq := by
      dsimp only
      rw [h.ints_eq, h.index_eq, List.length_cons, hcount, List.replicate_succ]
      simp
    index_eq := by simp [h.index_eq]
    rem_pos := by dsimp only; omega
    rem_le := by dsimp only; omega
    rem_mod := by dsimp only; omega
    accum_lt := by simp
    done_lt := by
      intro e he
      rcases List.mem_append.1 he with he | he
      · exact h.done_lt e he
      · rw [List.mem_singleton.1 he]
        omega
    value_eq := by
      dsimp only
      rw [← hval, Radix.value_append]
      simp
      ring }

/-- Any other digit makes the group in progress longer. -/
theorem GroupInv.step_incomplete (h : GroupInv n done s (d :: rest)) (hd : d < 10)
    (hrem : s.rem ≠ 1) : GroupInv n done (groupStep s d) rest := by
  have hpos := h.rem_pos
  have hle := h.rem_le
  have hmod := h.rem_mod
  have hacc := h.accum_lt
  have hval := h.value_eq
  rw [List.length_cons] at hmod
  rw [List.length_cons, Radix.value_cons, pow_succ] at hval
  have hcount : (rest.length + 1 + 5) / 6 = (rest.length + 5) / 6 := by omega
  have hpow : 10 ^ (6 - (s.rem - 1)) = 10 ^ (6 - s.rem) * 10 := by
    rw [← pow_succ]
    congr 1
    omega
  have hne : s.rem - 1 ≠ 0 := by omega
  simp only [groupStep, hne, if_false]
  exact {
    ints_eq := by
      dsimp only
      rw [h.ints_eq, List.length_cons, hcount]
    index_eq := h.index_eq
    rem_pos := by dsimp only; omega
    rem_le := by dsimp only; omega
    rem_mod := by dsimp only; omega
    accum_lt := by dsimp only; rw [hpow]; omega
    done_lt := h.done_lt
    value_eq := by
      dsimp only
      rw [← hval, hpow]
      ring }

/-- A round keeps the invariant. -/
theorem GroupInv.step (h : GroupInv n done s (d :: rest)) (hd : d < 10) :
    ∃ done', GroupInv n done' (groupStep s d) rest := by
  by_cases hrem : s.rem = 1
  · exact ⟨_, h.step_complete hd hrem⟩
  · exact ⟨_, h.step_incomplete hd hrem⟩

end groupStep

/-- The loop keeps the invariant. -/
theorem GroupInv.run {n : ℕ} {done : List ℕ} {s : Grouping} {rest : List ℕ}
    (h : GroupInv n done s rest) (hlt : ∀ d ∈ rest, d < 10) :
    ∃ done', GroupInv n done' (rest.foldl groupStep s) [] := by
  induction rest generalizing done s with
  | nil => exact ⟨done, h⟩
  | cons d rest ih =>
    obtain ⟨done', h'⟩ := h.step (hlt d List.mem_cons_self)
    exact ih h' fun e he => hlt e (List.mem_cons_of_mem _ he)

/-- When no digit is left, the groups denote `n`. -/
theorem GroupInv.final {n : ℕ} {done : List ℕ} {s : Grouping} (h : GroupInv n done s []) :
    s.ints = done ∧ Radix.value 1000000 done = n := by
  have hrem : s.rem = 6 := by
    have hpos := h.rem_pos
    have hle := h.rem_le
    have hmod := h.rem_mod
    rw [List.length_nil] at hmod
    omega
  have hacc := h.accum_lt
  have hval := h.value_eq
  rw [hrem] at hacc hval
  simp only [Nat.sub_self, pow_zero, mul_one, List.length_nil, Radix.value_nil,
    add_zero] at hval hacc
  exact ⟨by simpa using h.ints_eq, by omega⟩

/-- The groups denote what the digits denote, each below a million. -/
theorem value_groupDigits {digits : List ℕ} (hlt : ∀ d ∈ digits, d < 10) :
    Radix.value 1000000 (groupDigits digits) = Radix.value 10 digits ∧
      ∀ v ∈ groupDigits digits, v < 1000000 := by
  obtain ⟨done, h⟩ := (groupInv_start digits).run hlt
  have hints : groupDigits digits = done := h.final.1
  rw [hints]
  exact ⟨h.final.2, h.done_lt⟩

theorem groupDigits_ne_nil {digits : List ℕ} (hne : digits ≠ []) : groupDigits digits ≠ [] := by
  -- The loop sets groups that are there from the start.
  have hlen : ∀ (ds : List ℕ) (s : Grouping),
      (ds.foldl groupStep s).ints.length = s.ints.length := by
    intro ds
    induction ds with
    | nil => exact fun _ => rfl
    | cons d ds ih =>
      intro s
      rw [List.foldl_cons, ih]
      simp only [groupStep]
      split <;> simp
  have hpos : 0 < digits.length := List.length_pos_of_ne_nil hne
  refine List.ne_nil_of_length_pos ?_
  rw [groupDigits, hlen, List.length_replicate]
  omega

/-! ## Dividing by 256 -/

/-- No digit is left of a quotient that is zero. -/
theorem quotient_eq_nil {ints : List ℕ} (h : Radix.value 1000000 ints / 256 = 0) :
    (Radix.longDiv 1000000 256 0 ints).1.dropWhile (· == 0) = [] :=
  Radix.dropWhile_zero_of_value_eq_zero (by decide)
    ((Radix.value_longDiv_fst (B := 1000000) (d := 256) (by decide) ints).trans h)

/-- A division without its leading zeros is smaller or shorter: its value drops
    unless it is zero, and then no digit is left. -/
theorem quotients_decrease {ints : List ℕ} (hne : ints ≠ []) :
    Radix.value 1000000 ((Radix.longDiv 1000000 256 0 ints).1.dropWhile (· == 0)) +
        ((Radix.longDiv 1000000 256 0 ints).1.dropWhile (· == 0)).length <
      Radix.value 1000000 ints + ints.length := by
  have hval := Radix.value_longDiv_fst (B := 1000000) (d := 256) (by decide) ints
  have hlen := Radix.length_longDiv (B := 1000000) (d := 256) 0 ints
  have hdrop := (List.dropWhile_sublist (fun x => x == 0)
    (l := (Radix.longDiv 1000000 256 0 ints).1)).length_le
  have hpos : 0 < ints.length := List.length_pos_of_ne_nil hne
  rw [Radix.value_dropWhile_zero, hval]
  by_cases h0 : Radix.value 1000000 ints = 0
  · rw [quotient_eq_nil (by rw [h0]), List.length_nil, h0]
    omega
  · -- The value drops, and the length does not grow.
    have := Nat.div_lt_self (Nat.pos_of_ne_zero h0) (by decide : 1 < 256)
    omega

/-- The remainders of `ints`, a number in base one million, divided by 256 until
    it is zero; leading zeros are removed after every division. -/
def divideBytes (ints : List ℕ) : Bytes :=
  if ints = [] then []
  else
    let divided := Radix.longDiv 1000000 256 0 ints
    UInt8.ofNat divided.2 :: divideBytes (divided.1.dropWhile (· == 0))
  termination_by Radix.value 1000000 ints + ints.length
  decreasing_by exact quotients_decrease ‹_›

/-- The remainders are the digits in base 256, the least significant first. -/
theorem divideBytes_eq {ints : List ℕ} (hne : ints ≠ []) : divideBytes ints =
    ((Radix.numeral 256 (Radix.value 1000000 ints)).map UInt8.ofNat).reverse := by
  induction hn : Radix.value 1000000 ints using Nat.strongRecOn generalizing ints with
  | ind n ih =>
    have hval := Radix.value_longDiv_fst (B := 1000000) (d := 256) (by decide) ints
    have hrem := Radix.longDiv_snd (B := 1000000) (d := 256) (by decide) ints
    rw [divideBytes, if_neg hne]
    dsimp only
    rw [hrem]
    by_cases hq : Radix.value 1000000 ints / 256 = 0
    · -- A single digit: nothing but zeros is left.
      have hlt : n < 256 := by omega
      have hnum : Radix.numeral 256 n = [n] := by
        by_cases h0 : n = 0
        · rw [h0, Radix.numeral_zero]
        · rw [Radix.numeral_of_ne_zero h0, Nat.digits_of_lt 256 n h0 hlt]
          rfl
      have hstop : divideBytes [] = [] := by rw [divideBytes, if_pos rfl]
      rw [quotient_eq_nil hq, hstop, hnum, hn, Nat.mod_eq_of_lt hlt]
      rfl
    · -- The last digit, and by induction those of the quotient.
      have hvq : Radix.value 1000000
          ((Radix.longDiv 1000000 256 0 ints).1.dropWhile (fun x => x == 0)) = n / 256 := by
        rw [Radix.value_dropWhile_zero, hval, hn]
      have hne' : (Radix.longDiv 1000000 256 0 ints).1.dropWhile (fun x => x == 0) ≠ [] := by
        intro hnil
        rw [hnil, Radix.value_nil] at hvq
        omega
      have hnum : Radix.numeral 256 n = Radix.numeral 256 (n / 256) ++ [n % 256] := by
        rw [Radix.numeral_of_ne_zero (by omega), Radix.numeral_of_ne_zero (by omega),
          Nat.digits_def' (by decide) (by omega), List.reverse_cons]
      rw [ih (n / 256) (by omega) hne' hvq, hnum, hn, List.map_append, List.reverse_append]
      rfl

/-! ## Bytes of amounts -/

/-- The base-256 digits of a numeral, the most significant first. -/
def digitsBytes (digits : List ℕ) : Bytes := (divideBytes (groupDigits digits)).reverse

/-- The bytes of an amount: those of the ASCII digits it is printed with. -/
def NanoAmount.rawBytes (l : Locale) (a : NanoAmount) : Bytes :=
  let digits := (a.rawString l).filterMap parseInt
  if digits.length > 0 then digitsBytes digits else []

/-- The bytes of a numeral are the shortest ones that denote its value. -/
theorem digitsBytes_eq {digits : List ℕ} (hne : digits ≠ []) (hlt : ∀ d ∈ digits, d < 10) :
    digitsBytes digits = shortBytes (Radix.value 10 digits) := by
  rw [digitsBytes, divideBytes_eq (groupDigits_ne_nil hne), (value_groupDigits hlt).1,
    List.reverse_reverse, shortBytes]

theorem lt_of_mem_filterMap {s : Str} {d : ℕ} (hd : d ∈ s.filterMap parseInt) : d < 10 := by
  obtain ⟨c, _, hc⟩ := List.mem_filterMap.1 hd
  exact (Character.digit_eq_some hc).1

/-- The digits `rawBytes` sees in a printed number. -/
theorem filterMap_string (l : Locale) (b : ℚ) :
    (l.string b).filterMap parseInt = (Radix.numeral 10 (roundHalfEven b).natAbs).filterMap fun d =>
      parseInt (l.digit (Fin.ofNat 10 d)) := by
  have hsign : (if b < 0 then l.minusSign else []).filterMap parseInt = [] := by
    split
    · exact List.filterMap_eq_nil_iff.2 l.minusSign_no_digit
    · rfl
  rw [Locale.string, List.filterMap_append, hsign, List.nil_append, List.filterMap_map]
  rfl

/-- The number the ASCII digits of a printed amount denote. -/
def NanoAmount.printedValue (l : Locale) (a : NanoAmount) : ℕ :=
  Radix.value 10 ((a.rawString l).filterMap parseInt)

/-- With an ASCII digit among its characters, a printed amount has the shortest
    bytes of the number its digits denote. -/
theorem rawBytes_of_ne_nil {l : Locale} {a : NanoAmount}
    (hne : (a.rawString l).filterMap parseInt ≠ []) :
    a.rawBytes l = shortBytes (a.printedValue l) := by
  simp only [NanoAmount.rawBytes, List.length_pos_of_ne_nil hne, if_true]
  exact digitsBytes_eq hne fun _ => lt_of_mem_filterMap

/-- The padded bytes of an amount are determined by what its ASCII digits denote. -/
theorem padToLength_rawBytes (l : Locale) (a : NanoAmount) :
    padToLength 16 (a.rawBytes l) = padToLength 16 (shortBytes (a.printedValue l)) := by
  by_cases hne : (a.rawString l).filterMap parseInt = []
  · -- No bytes at all and the single byte `0` are padded alike.
    rw [NanoAmount.rawBytes, NanoAmount.printedValue, hne]
    rfl
  · rw [rawBytes_of_ne_nil hne]

/-- The bytes of an amount denote what its ASCII digits do. -/
theorem bytesValue_rawBytes (l : Locale) (a : NanoAmount) :
    bytesValue (a.rawBytes l) = a.printedValue l := by
  rw [← bytesValue_padToLength 16, padToLength_rawBytes, bytesValue_padToLength,
    bytesValue_shortBytes]

/-- ASCII digits that are those of a decimal numeral give the bytes of the number. -/
theorem rawBytes_of_filterMap {l : Locale} {a : NanoAmount} {n : ℕ}
    (h : (a.rawString l).filterMap parseInt = Radix.numeral 10 n) :
    a.rawBytes l = shortBytes n := by
  rw [rawBytes_of_ne_nil (h ▸ Radix.numeral_ne_nil n), NanoAmount.printedValue, h,
    Radix.value_numeral]

/-- An amount printed as a decimal numeral has the bytes of the number. -/
theorem rawBytes_of_rawString {l : Locale} {a : NanoAmount} {n : ℕ}
    (h : a.rawString l = decimal n) : a.rawBytes l = shortBytes n := by
  refine rawBytes_of_filterMap ?_
  rw [h, decimal, List.filterMap_map]
  refine (List.filterMap_congr fun d hd => ?_).trans List.filterMap_some
  exact parseInt_digit (Radix.lt_of_mem_numeral (by decide) hd)

/-- With Latin digits, an amount has the bytes of the nearest integer without its
    sign. -/
theorem rawBytes_of_isLatin {l : Locale} (hl : l.IsLatin) (a : NanoAmount) :
    a.rawBytes l = shortBytes (roundHalfEven a.rawAmount).natAbs := by
  refine rawBytes_of_filterMap ?_
  rw [NanoAmount.rawString, filterMap_string]
  refine (List.filterMap_congr fun d hd => ?_).trans List.filterMap_some
  have hlt := Radix.lt_of_mem_numeral (by decide) hd
  rw [hl, Fin.val_ofNat, Nat.mod_eq_of_lt hlt, parseInt_digit hlt]

/-- With Latin digits, the bytes of an amount denote its absolute value, up to a half. -/
theorem abs_sub_bytesValue_rawBytes_le {l : Locale} (hl : l.IsLatin) (a : NanoAmount) :
    |(|a.rawAmount| - (bytesValue (a.rawBytes l) : ℚ))| ≤ 1 / 2 := by
  have hcast : ((roundHalfEven a.rawAmount).natAbs : ℚ) = |(roundHalfEven a.rawAmount : ℚ)| := by
    rw [Nat.cast_natAbs, Int.cast_abs]
  rw [rawBytes_of_isLatin hl, bytesValue_shortBytes, hcast]
  exact (abs_abs_sub_abs_le _ _).trans (abs_sub_roundHalfEven_le _)

/-! ## What the loops go through -/

/-- The variables of the loop that groups digits, before it. -/
def groupStart (digits : List ℕ) : Grouping where
  ints := List.replicate ((digits.length + 5) / 6) 0
  rem := if digits.length % 6 = 0 then 6 else digits.length % 6
  index := 0
  accum := 0

/-- The numbers that are divided in turn, until none is left. -/
def divideRounds (ints : List ℕ) : List (List ℕ) :=
  if ints = [] then []
  else ints :: divideRounds ((Radix.longDiv 1000000 256 0 ints).1.dropWhile (· == 0))
  termination_by Radix.value 1000000 ints + ints.length
  decreasing_by exact quotients_decrease ‹_›

/-- The numbers in the variables while a numeral is converted: the group in
    progress and the groups, and in every division what is divided, the totals with
    the remainders before them, their remainders and their quotients. -/
def intermediateValues (digits : List ℕ) : List ℕ :=
  ((digits.scanl groupStep (groupStart digits)).flatMap fun s => s.accum :: s.ints) ++
    (divideRounds (groupDigits digits)).flatMap fun ints => ints ++
      (Radix.totals 1000000 256 0 ints).flatMap fun total => [total, total % 256, total / 256]

theorem groupDigits_eq (digits : List ℕ) :
    groupDigits digits = (digits.foldl groupStep (groupStart digits)).ints := rfl

/-- The bytes are the remainders of the divisions in turn. -/
theorem divideBytes_eq_map (ints : List ℕ) : divideBytes ints =
    (divideRounds ints).map fun ints => UInt8.ofNat (Radix.longDiv 1000000 256 0 ints).2 := by
  fun_induction divideRounds ints with
  | case1 => rw [divideBytes, if_pos rfl, List.map_nil]
  | case2 ints hne ih => rw [divideBytes, if_neg hne, List.map_cons, ← ih]

/-- The invariant holds in all states of the loop. -/
theorem GroupInv.scanl {n : ℕ} {done : List ℕ} {s : Grouping} {rest : List ℕ}
    (h : GroupInv n done s rest) (hlt : ∀ d ∈ rest, d < 10) :
    ∀ s' ∈ rest.scanl groupStep s, ∃ done' rest', GroupInv n done' s' rest' := by
  induction rest generalizing done s with
  | nil =>
    intro s' hs'
    obtain rfl : s' = s := by simpa using hs'
    exact ⟨done, [], h⟩
  | cons d rest ih =>
    intro s' hs'
    rw [List.scanl_cons, List.mem_cons] at hs'
    rcases hs' with rfl | hs'
    · exact ⟨done, d :: rest, h⟩
    · obtain ⟨done', h'⟩ := h.step (hlt d List.mem_cons_self)
      exact ih h' (fun e he => hlt e (List.mem_cons_of_mem _ he)) s' hs'

/-- Groups stay below a million. -/
theorem GroupInv.lt {n : ℕ} {done : List ℕ} {s : Grouping} {rest : List ℕ}
    (h : GroupInv n done s rest) : ∀ v ∈ s.accum :: s.ints, v < 1000000 := by
  intro v hv
  rcases List.mem_cons.1 hv with rfl | hv
  · -- At most five digits are in progress.
    have hpow : 10 ^ (6 - s.rem) ≤ 10 ^ 5 :=
      Nat.pow_le_pow_right (by decide) (by have := h.rem_pos; omega)
    exact h.accum_lt.trans_le (hpow.trans (by decide))
  · rw [h.ints_eq] at hv
    rcases List.mem_append.1 hv with hv | hv
    · exact h.done_lt v hv
    · rw [List.eq_of_mem_replicate hv]
      decide

/-- What is divided in turn has digits below a million. -/
theorem lt_of_mem_divideRounds {ints : List ℕ} (hlt : ∀ v ∈ ints, v < 1000000) :
    ∀ round ∈ divideRounds ints, ∀ v ∈ round, v < 1000000 := by
  fun_induction divideRounds ints with
  | case1 => exact fun _ h => absurd h List.not_mem_nil
  | case2 ints hne ih =>
    have hquotient : ∀ v ∈ (Radix.longDiv 1000000 256 0 ints).1.dropWhile (· == 0), v < 1000000 :=
      fun v hv => Radix.lt_of_mem_longDiv (by decide) (by decide) hlt
        ((List.dropWhile_sublist _).mem hv)
    intro round hround
    rcases List.mem_cons.1 hround with rfl | hround
    · exact hlt
    · exact ih hquotient round hround

theorem intermediateValues_lt {digits : List ℕ} (hlt : ∀ d ∈ digits, d < 10) :
    ∀ v ∈ intermediateValues digits, v < 256 * 10 ^ 6 := by
  intro v hv
  rcases List.mem_append.1 hv with hv | hv
  · obtain ⟨s, hs, hv⟩ := List.mem_flatMap.1 hv
    obtain ⟨done, rest, hinv⟩ := (groupInv_start digits).scanl hlt s hs
    exact (hinv.lt v hv).trans (by decide)
  · obtain ⟨ints, hints, hv⟩ := List.mem_flatMap.1 hv
    have hdigits := lt_of_mem_divideRounds (value_groupDigits hlt).2 ints hints
    rcases List.mem_append.1 hv with hv | hv
    · exact (hdigits v hv).trans (by decide)
    · obtain ⟨total, htotal, hv⟩ := List.mem_flatMap.1 hv
      have hlarge : total < 256 * 1000000 :=
        Radix.lt_of_mem_totals (by decide) (by decide) hdigits htotal
      simp only [List.mem_cons, List.not_mem_nil, or_false] at hv
      omega

/-- The bytes of an amount that is printed as ASCII digits are the shortest ones
    that denote the number; nothing on the way there reaches 256 millions. -/
theorem rawBytes_minimal {digits : List ℕ} (hne : digits ≠ []) (hlt : ∀ d ∈ digits, d < 10) :
    (∀ (l : Locale) (a : NanoAmount), a.rawString l = digits.map digit →
      a.rawBytes l = digitsBytes digits) ∧
    bytesValue (digitsBytes digits) = Radix.value 10 digits ∧
    (Radix.value 10 digits = 0 → digitsBytes digits = [0]) ∧
    (Radix.value 10 digits ≠ 0 → (digitsBytes digits).head? ≠ some 0) ∧
    (∀ v ∈ intermediateValues digits, v < 256 * 10 ^ 6) ∧
    ∀ digits' : List ℕ, digits' ≠ [] → (∀ d ∈ digits', d < 10) →
      (digitsBytes digits = digitsBytes digits' ↔
        Radix.value 10 digits = Radix.value 10 digits') := by
  have hbytes := digitsBytes_eq hne hlt
  refine ⟨fun l a hprint => ?_, ?_, fun h0 => ?_, fun h0 => ?_, intermediateValues_lt hlt, ?_⟩
  · have hdigits : (a.rawString l).filterMap parseInt = digits := by
      rw [hprint, List.filterMap_map]
      exact (List.filterMap_congr fun d hd => parseInt_digit (hlt d hd)).trans List.filterMap_some
    simp only [NanoAmount.rawBytes, hdigits, List.length_pos_of_ne_nil hne, if_true]
  · rw [hbytes, bytesValue_shortBytes]
  · rw [hbytes, h0]
    rfl
  · rw [hbytes]
    exact head?_shortBytes_ne_zero h0
  · intro digits' hne' hlt'
    rw [hbytes, digitsBytes_eq hne' hlt', shortBytes_inj]

/-- Seven digits, the first of which is a zero. -/
theorem rawBytes_minimal_leadingZero : digitsBytes [0, 0, 0, 0, 2, 5, 6] = [1, 0] ∧
    ∀ v ∈ intermediateValues [0, 0, 0, 0, 2, 5, 6], v < 256 * 10 ^ 6 := by
  have hne : [0, 0, 0, 0, 2, 5, 6] ≠ [] := by decide
  obtain ⟨_, _, _, _, hvalues, hunique⟩ := rawBytes_minimal hne (by decide)
  refine ⟨?_, hvalues⟩
  rw [(hunique [2, 5, 6] (by decide) (by decide)).2 rfl]
  decide +kernel

end NanoSwift
