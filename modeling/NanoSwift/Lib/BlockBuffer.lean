import NanoSwift.Lib.BlockCode

/-!
# Block buffers

Functions that compress blocks of `n` elements get their input in pieces of any
length, and keep what does not fill a block in a buffer. Which pieces the input
comes in must not matter.

A *lazy* buffer is compressed only when it is full and another element comes, so
that the last block is still there at the end (`Lazy.push`).

* `Lazy.pushAll_append`: two pieces are one after the other.
* `Lazy.foldl_pushBlock`: whole blocks may be put into a buffer that is full or
  empty, one by one.
* `Lazy.pushAll_nil_eq`: from an empty buffer, all slices of the input but the
  last are compressed, and the last one is in the buffer.
-/

namespace BlockBuffer

variable {σ α : Type*}

/-! ## Whole blocks -/

/-- The first `q` blocks of a list. -/
def firstBlocks (n q : ℕ) (l : List α) : List (List α) :=
  (List.range q).map fun i => (l.drop (n * i)).take n

theorem firstBlocks_succ (n q : ℕ) (l : List α) :
    firstBlocks n (q + 1) l = firstBlocks n q l ++ [(l.drop (n * q)).take n] := by
  rw [firstBlocks, List.range_succ, List.map_append]
  rfl

/-- Blocks in a row are the front of the list. -/
theorem flatten_firstBlocks (n q : ℕ) (l : List α) :
    (firstBlocks n q l).flatten = l.take (n * q) := by
  induction q with
  | zero => rfl
  | succ q ih =>
    rw [firstBlocks_succ, List.flatten_append, ih, List.flatten_singleton, Nat.mul_succ,
      List.take_add]

theorem length_of_mem_firstBlocks {n q : ℕ} {l : List α} (h : n * q ≤ l.length) :
    ∀ block ∈ firstBlocks n q l, block.length = n := by
  intro block hblock
  obtain ⟨i, hi, rfl⟩ := List.mem_map.1 hblock
  have hle : n * (i + 1) ≤ n * q := Nat.mul_le_mul_left n (List.mem_range.1 hi)
  rw [Nat.mul_succ] at hle
  rw [List.length_take, List.length_drop]
  omega

/-! ## Lazy buffers -/

namespace Lazy

variable (n : ℕ) (compress : σ → List α → σ)

/-- Takes one element; a full buffer is compressed before. -/
def push (p : σ × List α) (a : α) : σ × List α :=
  if p.2.length = n then (compress p.1 p.2, [a]) else (p.1, p.2 ++ [a])

/-- Takes the elements of a list, one by one. -/
def pushAll (p : σ × List α) (l : List α) : σ × List α := l.foldl (push n compress) p

/-- Takes a whole block; a full buffer is compressed before. -/
def pushBlock (p : σ × List α) (block : List α) : σ × List α :=
  (if p.2.length = n then compress p.1 p.2 else p.1, block)

variable {n compress} {s : σ} {buffer : List α}

@[simp] theorem pushAll_nil (p : σ × List α) : pushAll n compress p [] = p := rfl

@[simp] theorem pushAll_cons (p : σ × List α) (a : α) (l : List α) :
    pushAll n compress p (a :: l) = pushAll n compress (push n compress p a) l := rfl

/-- Two pieces in a row are taken one after the other. -/
theorem pushAll_append (p : σ × List α) (l l' : List α) :
    pushAll n compress p (l ++ l') = pushAll n compress (pushAll n compress p l) l' :=
  List.foldl_append

/-- What fits into the buffer is put there. -/
theorem pushAll_of_fits {l : List α} (h : buffer.length + l.length ≤ n) :
    pushAll n compress (s, buffer) l = (s, buffer ++ l) := by
  induction l generalizing buffer with
  | nil => rw [pushAll_nil, List.append_nil]
  | cons a l ih =>
    rw [List.length_cons] at h
    have hpush : push n compress (s, buffer) a = (s, buffer ++ [a]) := if_neg (by dsimp only; omega)
    rw [pushAll_cons, hpush, ih (by rw [List.length_append, List.length_singleton]; omega),
      List.append_assoc, List.singleton_append]

/-- Where something comes, a full buffer is compressed and empty then. -/
theorem pushAll_of_full (hn : 0 < n) (h : buffer.length = n) {l : List α} (hl : l ≠ []) :
    pushAll n compress (s, buffer) l = pushAll n compress (compress s buffer, []) l := by
  obtain ⟨a, l, rfl⟩ := List.exists_cons_of_ne_nil hl
  have hfull : push n compress (s, buffer) a = (compress s buffer, [a]) := if_pos h
  have hempty : push n compress (compress s buffer, []) a = (compress s buffer, [a]) :=
    if_neg (by simp only [List.length_nil]; omega)
  rw [pushAll_cons, pushAll_cons, hfull, hempty]

/-- The elements of a block, one by one, have the effect of the block. -/
theorem pushBlock_eq (hn : 0 < n) (h : buffer.length = n ∨ buffer = []) {block : List α}
    (hblock : block.length = n) :
    pushBlock n compress (s, buffer) block = pushAll n compress (s, buffer) block := by
  have hne : block ≠ [] := List.ne_nil_of_length_pos (by omega)
  rcases h with h | rfl
  · rw [pushAll_of_full hn h hne, pushAll_of_fits (by simp [hblock]), List.nil_append]
    exact congrArg (·, block) (if_pos h)
  · rw [pushAll_of_fits (by simp [hblock]), List.nil_append]
    exact congrArg (·, block) (if_neg (by simp only [List.length_nil]; omega))

/-- Whole blocks have the effect of their elements, where the buffer is full or empty. -/
theorem foldl_pushBlock (hn : 0 < n) {p : σ × List α} (h : p.2.length = n ∨ p.2 = [])
    {blocks : List (List α)} (hblocks : ∀ block ∈ blocks, block.length = n) :
    blocks.foldl (pushBlock n compress) p = pushAll n compress p blocks.flatten := by
  induction blocks generalizing p with
  | nil => rfl
  | cons block blocks ih =>
    have hblock := hblocks block List.mem_cons_self
    rw [List.foldl_cons, List.flatten_cons, pushAll_append, ← pushBlock_eq hn h hblock]
    exact ih (.inl hblock) fun b hb => hblocks b (List.mem_cons_of_mem _ hb)

/-- All slices but the last are compressed, and the last one stays in the buffer. -/
theorem pushAll_nil_eq (hn : 0 < n) (s : σ) (l : List α) :
    pushAll n compress (s, []) l =
      ((slices n l).dropLast.foldl compress s, (slices n l).getLast?.getD []) := by
  induction h : l.length using Nat.strongRecOn generalizing s l with
  | ind k ih =>
    by_cases hl : l = []
    · rw [hl, slices_nil hn]
      rfl
    · rw [slices_cons hn hl]
      by_cases hfits : l.length ≤ n
      · rw [List.drop_of_length_le hfits, slices_nil hn, List.take_of_length_le hfits,
          pushAll_of_fits (by simpa using hfits)]
        rfl
      · -- The first slice is full, and something comes after it.
        have hrest : l.drop n ≠ [] := by simpa using hfits
        have htake : (l.take n).length = n := List.length_take_of_le (by omega)
        have hslices : slices n (l.drop n) ≠ [] := by simp [slices_cons hn hrest]
        have hfirst : pushAll n compress (s, []) (l.take n) = (s, l.take n) :=
          pushAll_of_fits (by simp)
        conv_lhs => rw [← List.take_append_drop n l]
        rw [pushAll_append, hfirst, pushAll_of_full hn htake hrest,
          ih _ (by rw [List.length_drop]; omega) _ _ rfl, List.dropLast_cons_of_ne_nil hslices,
          List.foldl_cons, List.getLast?_cons_of_ne_nil hslices]

end Lazy

end BlockBuffer
