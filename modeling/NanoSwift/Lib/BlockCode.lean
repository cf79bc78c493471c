import Mathlib.Data.List.Basic
import Mathlib.Order.Basic
import Mathlib.Tactic

/-!
# Block codes

A block code writes every symbol as a block of symbols of another alphabet, all
blocks of one width (`BlockCode`): bytes as pairs of hexadecimal digits or as
eight bits, symbols of an alphabet of `2 ^ w` letters as `w` bits.

* A list is cut into `slices` of the width of a code, the last one possibly
  short, and read back slice by slice, either up to the first slice that does
  not decode (`BlockCode.read`), or all or nothing (`BlockCode.readAll`).
* What is written reads back (`read_write`, `readAll_write`), so that writing is
  injective; a list that is sliced into blocks is written from some symbols
  (`exists_write`).
* An exact code decodes nothing but its own blocks (`BlockCode.Exact`): reading
  all or nothing is then inverse to writing (`readAll_eq_some`).
-/

/-! ## Slices -/

section Slices

variable {α β : Type*}

/-- The slices of width `n` of a list, from the left; the last one may be short. -/
def slices (n : ℕ) (l : List α) : List (List α) :=
  (List.range ((l.length + n - 1) / n)).map fun i => (l.drop (i * n)).take n

theorem slices_nil {n : ℕ} (hn : 0 < n) : slices n ([] : List α) = [] := by
  have : n - 1 < n := Nat.sub_lt hn Nat.one_pos
  simp [slices, this]

/-- The first slice of a list, and those of the rest. -/
theorem slices_cons {n : ℕ} (hn : 0 < n) {l : List α} (hl : l ≠ []) :
    slices n l = l.take n :: slices n (l.drop n) := by
  have hpos : 0 < l.length := List.length_pos_of_ne_nil hl
  -- There is one slice more than in the rest; a short list has only this one.
  have hcount : (l.length + n - 1) / n = (l.length - n + n - 1) / n + 1 := by
    rcases le_or_gt n l.length with h | h
    · rw [show l.length + n - 1 = (l.length - n + n - 1) + n by omega, Nat.add_div_right _ hn]
    · have h₁ : (l.length - 1) / n = 0 := Nat.div_eq_of_lt (by omega)
      have h₂ : (n - 1) / n = 0 := Nat.div_eq_of_lt (by omega)
      rw [show l.length - n + n - 1 = n - 1 by omega, h₂,
        show l.length + n - 1 = (l.length - 1) + n by omega, Nat.add_div_right _ hn, h₁]
  simp only [slices, hcount, List.range_succ_eq_map, List.map_cons, List.map_map, List.length_drop]
  congr 1
  · simp
  · refine List.map_congr_left fun i _ => ?_
    simp [List.drop_drop, Nat.succ_mul, Nat.add_comm]

/-- Slicing is not lossy: the slices in a row are the list. -/
theorem flatten_slices {n : ℕ} (hn : 0 < n) (l : List α) : (slices n l).flatten = l := by
  induction h : l.length using Nat.strongRecOn generalizing l with
  | ind k ih =>
    by_cases hl : l = []
    · simp [hl, slices_nil hn]
    · have hpos : 0 < l.length := List.length_pos_of_ne_nil hl
      rw [slices_cons hn hl, List.flatten_cons,
        ih _ (by rw [List.length_drop]; omega) (l.drop n) rfl, List.take_append_drop]

/-- Blocks of width `n` in a row are sliced where they meet. -/
theorem slices_flatMap {n : ℕ} (hn : 0 < n) {f : β → List α} (hf : ∀ b, (f b).length = n)
    (bs : List β) : slices n (bs.flatMap f) = bs.map f := by
  induction bs with
  | nil => exact slices_nil hn
  | cons b bs ih =>
    have hne : f b ≠ [] := List.ne_nil_of_length_pos (by rw [hf]; exact hn)
    rw [List.flatMap_cons, slices_cons hn (by simp [hne]), List.map_cons, ← ih,
      List.take_left' (hf b), List.drop_left' (hf b)]

/-- The slices of a list of blocks have full width. -/
theorem length_of_mem_slices {n : ℕ} (hn : 0 < n) {l : List α} (hl : n ∣ l.length) :
    ∀ s ∈ slices n l, s.length = n := by
  intro s hs
  simp only [slices, List.mem_map, List.mem_range] at hs
  obtain ⟨i, hi, rfl⟩ := hs
  obtain ⟨k, hk⟩ := hl
  have hik : i < k := by
    have : (n * k + n - 1) / n = k := by
      rw [Nat.add_sub_assoc hn, Nat.mul_add_div hn, Nat.div_eq_of_lt (by omega), Nat.add_zero]
    rwa [hk, this] at hi
  have : n * (i + 1) ≤ n * k := Nat.mul_le_mul_left n hik
  rw [Nat.mul_succ] at this
  rw [List.length_take, List.length_drop, hk, Nat.mul_comm i n]
  omega

/-- Slices hold nothing but elements of the list. -/
theorem mem_of_mem_slices {n : ℕ} {l s : List α} (hs : s ∈ slices n l) {a : α} (ha : a ∈ s) :
    a ∈ l := by
  simp only [slices, List.mem_map] at hs
  obtain ⟨i, _, rfl⟩ := hs
  exact List.mem_of_mem_drop (List.mem_of_mem_take ha)

/-- The values of a list of optionals up to the first that is missing. -/
def takeSome : List (Option β) → List β
  | some b :: l => b :: takeSome l
  | _ => []

theorem takeSome_map_some (bs : List β) : takeSome (bs.map some) = bs := by
  induction bs with
  | nil => rfl
  | cons b bs ih => rw [List.map_cons, takeSome, ih]

end Slices

/-! ## Codes -/

/-- A code of the symbols `α` by blocks of `β`s, all of one width. -/
structure BlockCode (α β : Type*) where
  /-- The width of the blocks. -/
  width : ℕ
  /-- The block of a symbol. -/
  encode : α → List β
  /-- The symbol of a block; lists that are no blocks may decode too. -/
  decode : List β → Option α
  width_pos : 0 < width
  length_encode : ∀ a, (encode a).length = width
  decode_encode : ∀ a, decode (encode a) = some a

namespace BlockCode

variable {α β : Type*} (c : BlockCode α β)

/-- The blocks of a list of symbols, in a row. -/
def write (as : List α) : List β := as.flatMap c.encode

/-- The symbols of the slices of a list, up to the first that does not decode. -/
def read (l : List β) : List α := takeSome ((slices c.width l).map c.decode)

/-- The symbols of the slices of a list, if they all decode. -/
def readAll (l : List β) : Option (List α) := (slices c.width l).mapM c.decode

@[simp] theorem write_nil : c.write [] = [] := rfl

@[simp] theorem write_cons (a : α) (as : List α) : c.write (a :: as) = c.encode a ++ c.write as :=
  List.flatMap_cons

theorem write_append (as as' : List α) : c.write (as ++ as') = c.write as ++ c.write as' :=
  List.flatMap_append

@[simp] theorem length_write (as : List α) : (c.write as).length = c.width * as.length := by
  induction as with
  | nil => rfl
  | cons a as ih => rw [write_cons, List.length_append, c.length_encode, ih, List.length_cons]; ring

theorem slices_write (as : List α) : slices c.width (c.write as) = as.map c.encode :=
  slices_flatMap c.width_pos c.length_encode as

/-- What is written reads back. -/
@[simp] theorem read_write (as : List α) : c.read (c.write as) = as := by
  have : c.decode ∘ c.encode = some := funext c.decode_encode
  rw [read, slices_write, List.map_map, this, takeSome_map_some]

/-- What is written reads back, all of it. -/
@[simp] theorem readAll_write (as : List α) : c.readAll (c.write as) = some as := by
  rw [readAll, slices_write]
  induction as with
  | nil => rfl
  | cons a as ih => rw [List.map_cons, List.mapM_cons, c.decode_encode, ih]; rfl

theorem write_injective : Function.Injective c.write := fun as as' h => by
  rw [← c.read_write as, h, c.read_write]

/-- A list sliced into blocks is written from some symbols. -/
theorem exists_write {l : List β} (h : ∀ s ∈ slices c.width l, ∃ a, c.encode a = s) :
    ∃ as, c.write as = l := by
  -- By induction on the slices, not on the list, which is sliced anew in every step.
  suffices hs : ∀ ss : List (List β), (∀ s ∈ ss, ∃ a, c.encode a = s) →
      ∃ as, c.write as = ss.flatten by
    obtain ⟨as, has⟩ := hs _ h
    exact ⟨as, has.trans (flatten_slices c.width_pos l)⟩
  intro ss
  induction ss with
  | nil => exact fun _ => ⟨[], rfl⟩
  | cons s ss ih =>
    intro hss
    obtain ⟨a, ha⟩ := hss s List.mem_cons_self
    obtain ⟨as, has⟩ := ih fun s' hs' => hss s' (List.mem_cons_of_mem _ hs')
    exact ⟨a :: as, by rw [write_cons, ha, has, List.flatten_cons]⟩

/-- A code that decodes nothing but its blocks. -/
def Exact : Prop := ∀ s a, c.decode s = some a → c.encode a = s

/-- With an exact code, reading all or nothing inverts writing. -/
theorem readAll_eq_some (hc : c.Exact) {l : List β} {as : List α} :
    c.readAll l = some as ↔ c.write as = l := by
  refine ⟨fun h => ?_, fun h => h ▸ c.readAll_write as⟩
  suffices hs : ∀ ss as, List.mapM c.decode ss = some as → c.write as = ss.flatten from
    (hs _ _ h).trans (flatten_slices c.width_pos l)
  intro ss
  induction ss with
  | nil => rintro _ ⟨⟩; rfl
  | cons s ss ih =>
    intro as has
    simp only [List.mapM_cons, Option.bind_eq_bind, Option.bind_eq_some_iff, Option.pure_def,
      Option.some.injEq] at has
    obtain ⟨a, ha, as', has', rfl⟩ := has
    rw [write_cons, hc s a ha, ih as' has', List.flatten_cons]

end BlockCode
