import NanoSwift.Monocypher.Words
import NanoSwift.Lib.BlockBuffer

/-!
# BLAKE2b

The hash function that keys, checksums, blocks and signatures rest on, as Monocypher
computes it: the message comes in pieces, of which the bytes are collected as words
in a context (`crypto_blake2b_update`), and a block is compressed when it is full and
another byte comes.

* The context is a lazy buffer (`Buffers`), whichever way the bytes get there: one
  by one, or a whole block at once.
* The hash of a message that comes in any pieces is the one BLAKE2b defines for the
  whole message (`hash_of_pieces`); what the context held before it was initialised
  does not matter.
-/

namespace MonocypherC

open NanoSwift (Bytes)

/-! ## Compression -/

def rotr64 (x n : UInt64) : UInt64 := x >>> n ^^^ x <<< (64 - n)

def iv : Vector UInt64 8 :=
  #v[0x6a09e667f3bcc908, 0xbb67ae8584caa73b, 0x3c6ef372fe94f82b, 0xa54ff53a5f1d36f1,
    0x510e527fade682d1, 0x9b05688c2b3e6c1f, 0x1f83d9abfb41bd6b, 0x5be0cd19137e2179]

def sigma : Vector (Vector (Fin 16) 16) 12 :=
  #v[#v[0, 1, 2, 3, 4, 5, 6, 7, 8, 9, 10, 11, 12, 13, 14, 15],
    #v[14, 10, 4, 8, 9, 15, 13, 6, 1, 12, 0, 2, 11, 7, 5, 3],
    #v[11, 8, 12, 0, 5, 2, 15, 13, 10, 14, 3, 6, 7, 1, 9, 4],
    #v[7, 9, 3, 1, 13, 12, 11, 14, 2, 6, 5, 10, 4, 0, 15, 8],
    #v[9, 0, 5, 7, 2, 4, 10, 15, 14, 1, 11, 12, 6, 8, 3, 13],
    #v[2, 12, 6, 10, 0, 11, 8, 3, 4, 13, 7, 5, 15, 14, 1, 9],
    #v[12, 5, 1, 15, 14, 13, 4, 10, 0, 7, 6, 3, 9, 2, 8, 11],
    #v[13, 11, 7, 14, 12, 1, 3, 9, 5, 0, 15, 4, 8, 6, 2, 10],
    #v[6, 15, 14, 9, 11, 3, 0, 8, 12, 2, 13, 7, 1, 4, 10, 5],
    #v[10, 2, 8, 4, 7, 6, 1, 5, 15, 11, 9, 14, 3, 12, 13, 0],
    #v[0, 1, 2, 3, 4, 5, 6, 7, 8, 9, 10, 11, 12, 13, 14, 15],
    #v[14, 10, 4, 8, 9, 15, 13, 6, 1, 12, 0, 2, 11, 7, 5, 3]]

/-- Mixes two words of the input into four words of the work vector. -/
def BLAKE2_G (a b c d : Fin 16) (x y : UInt64) (v : Vector UInt64 16) : Vector UInt64 16 :=
  let v := v.set a (v[a] + (v[b] + x))
  let v := v.set d (rotr64 (v[d] ^^^ v[a]) 32)
  let v := v.set c (v[c] + v[d])
  let v := v.set b (rotr64 (v[b] ^^^ v[c]) 24)
  let v := v.set a (v[a] + (v[b] + y))
  let v := v.set d (rotr64 (v[d] ^^^ v[a]) 16)
  let v := v.set c (v[c] + v[d])
  v.set b (rotr64 (v[b] ^^^ v[c]) 63)

/-- A round, with the words of the input in the order `s`. -/
def BLAKE2_ROUND (input : Vector UInt64 16) (s : Vector (Fin 16) 16) (v : Vector UInt64 16) :
    Vector UInt64 16 :=
  let v := BLAKE2_G 0 4 8 12 input[s[0]] input[s[1]] v
  let v := BLAKE2_G 1 5 9 13 input[s[2]] input[s[3]] v
  let v := BLAKE2_G 2 6 10 14 input[s[4]] input[s[5]] v
  let v := BLAKE2_G 3 7 11 15 input[s[6]] input[s[7]] v
  let v := BLAKE2_G 0 5 10 15 input[s[8]] input[s[9]] v
  let v := BLAKE2_G 1 6 11 12 input[s[10]] input[s[11]] v
  let v := BLAKE2_G 2 7 8 13 input[s[12]] input[s[13]] v
  BLAKE2_G 3 4 9 14 input[s[14]] input[s[15]] v

/-- The context of a hash. -/
structure Blake2bCtx where
  hash : Vector UInt64 8
  /-- How many bytes are compressed, in two words. -/
  input_offset : UInt64 × UInt64
  input : Vector UInt64 16
  input_idx : ℕ
  hash_size : ℕ

/-- Adds the bytes of the buffer to those that are compressed. -/
def blake2b_incr (ctx : Blake2bCtx) : Blake2bCtx :=
  let y := UInt64.ofNat ctx.input_idx
  let x₀ := ctx.input_offset.1 + y
  let x₁ := if x₀ < y then ctx.input_offset.2 + 1 else ctx.input_offset.2
  { ctx with input_offset := (x₀, x₁) }

/-- Mixes a block into the hash. -/
def blake2b_compress (ctx : Blake2bCtx) (is_last_block : UInt64) : Blake2bCtx :=
  let v := ctx.hash ++
    #v[iv[(0 : Fin 8)], iv[1], iv[2], iv[3], iv[4] ^^^ ctx.input_offset.1,
      iv[5] ^^^ ctx.input_offset.2, iv[6] ^^^ ~~~(is_last_block - 1), iv[7]]
  let v := sigma.toList.foldl (fun v s => BLAKE2_ROUND ctx.input s v) v
  { ctx with hash := Vector.ofFn fun i : Fin 8 => ctx.hash[i] ^^^ (v[i] ^^^ v[i.val + 8]) }

/-! ## Input -/

/-- Puts a byte into the buffer, which is cleared before its first one. -/
def blake2b_set_input (ctx : Blake2bCtx) (input : UInt8) (index : ℕ) : Blake2bCtx :=
  let words := if index = 0 then Vector.replicate 16 0 else ctx.input
  let word := index >>> 3
  let byte := UInt64.ofNat (index &&& 7)
  { ctx with input := words.mapIdx fun i w =>
      if i = word then w ||| input.toUInt64 <<< (byte <<< 3) else w }

/-- Compresses a full buffer. -/
def blake2b_end_block (ctx : Blake2bCtx) : Blake2bCtx :=
  if ctx.input_idx = 128 then { blake2b_compress (blake2b_incr ctx) 0 with input_idx := 0 } else ctx

/-- Takes the bytes of a piece one by one. -/
def blake2b_update (ctx : Blake2bCtx) (message : Bytes) : Blake2bCtx :=
  message.foldl (fun ctx x =>
    let ctx := blake2b_end_block ctx
    let ctx := blake2b_set_input ctx x ctx.input_idx
    { ctx with input_idx := ctx.input_idx + 1 }) ctx

/-- Starts a hash of `hash_size` bytes, in a context that holds anything. -/
def crypto_blake2b_general_init (ctx : Blake2bCtx) (hash_size : ℕ) (key : Bytes) : Blake2bCtx :=
  let hash := iv.set (0 : Fin 8) (iv[(0 : Fin 8)] ^^^
    ((0x01010000 : UInt64) ^^^ UInt64.ofNat key.length <<< 8 ^^^ UInt64.ofNat hash_size))
  let ctx := { ctx with hash := hash, input_offset := (0, 0), hash_size := hash_size, input_idx := 0 }
  -- The first block is the key, if there is one.
  if key.length > 0 then
    let key_block := key ++ List.replicate (128 - key.length) 0
    { ctx with input := load64_le_buf key_block 16, input_idx := 128 }
  else ctx

/-- Takes a piece of the message, of which the middle part goes block by block. -/
def crypto_blake2b_update (ctx : Blake2bCtx) (message : Bytes) : Blake2bCtx :=
  if message.length = 0 then ctx
  else
    let aligned := min (align (UInt64.ofNat ctx.input_idx) 128).toNat message.length
    let ctx := blake2b_update ctx (message.take aligned)
    let message := message.drop aligned
    let ctx := (List.range (message.length >>> 7)).foldl (fun ctx i =>
      let ctx := blake2b_end_block ctx
      { ctx with input := load64_le_buf (message.drop (128 * i)) 16, input_idx := 128 }) ctx
    blake2b_update ctx (message.drop (128 * (message.length >>> 7)))

/-- Ends the hash. -/
def crypto_blake2b_final (ctx : Blake2bCtx) : Bytes :=
  let ctx := (List.range' ctx.input_idx (128 - ctx.input_idx)).foldl
    (fun ctx i => blake2b_set_input ctx 0 i) ctx
  let ctx := blake2b_compress (blake2b_incr ctx) 1
  let nb_words := ctx.hash_size >>> 3
  store64_le_buf (ctx.hash.toList.take nb_words) ++
    (List.range' (nb_words <<< 3) (ctx.hash_size - nb_words <<< 3)).map fun i =>
      (ctx.hash.toList.getD (i >>> 3) 0 >>> UInt64.ofNat (8 * (i &&& 7)) &&& 0xff).toUInt8

/-- A context before it is initialised. -/
def Blake2bCtx.zero : Blake2bCtx where
  hash := Vector.replicate 8 0
  input_offset := (0, 0)
  input := Vector.replicate 16 0
  input_idx := 0
  hash_size := 0

/-- The hash of `hash_size` bytes of a message, with a key. -/
def crypto_blake2b_general (hash_size : ℕ) (key message : Bytes) : Bytes :=
  let ctx := crypto_blake2b_general_init .zero hash_size key
  let ctx := crypto_blake2b_update ctx message
  crypto_blake2b_final ctx

/-- The hash of 64 bytes of a message. -/
def crypto_blake2b (message : Bytes) : Bytes := crypto_blake2b_general 64 [] message

/-! ## The words of a buffer -/

theorem load64_le_buf_getElem (src : Bytes) {size i : ℕ} (hi : i < size) :
    (load64_le_buf src size)[i] = load64_le (src.drop (8 * i)) := by
  rw [load64_le_buf, Vector.getElem_ofFn]

/-- Missing bytes are read as zeros. -/
theorem load64_le_append_zeros (s : Bytes) (k : ℕ) :
    load64_le (s ++ List.replicate k 0) = load64_le s := by
  rw [← UInt64.toNat_inj, toNat_load64_le, toNat_load64_le, List.take_append,
    List.take_replicate, leValue_append_zeros]

theorem load64_le_buf_append_zeros (src : Bytes) (k size : ℕ) :
    load64_le_buf (src ++ List.replicate k 0) size = load64_le_buf src size := by
  refine Vector.ext fun i hi => ?_
  rw [load64_le_buf_getElem, load64_le_buf_getElem, List.drop_append, List.drop_replicate,
    load64_le_append_zeros]

/-- Bytes after the eighth are not read. -/
theorem load64_le_append {s : Bytes} (hs : 8 ≤ s.length) (s' : Bytes) :
    load64_le (s ++ s') = load64_le s := by
  rw [← UInt64.toNat_inj, toNat_load64_le, toNat_load64_le, List.take_append_of_le_length hs]

/-- A block is read up to its end. -/
theorem load64_le_buf_take {message : Bytes} (h : 128 ≤ message.length) :
    load64_le_buf (message.take 128) 16 = load64_le_buf message 16 := by
  refine Vector.ext fun i hi => ?_
  rw [load64_le_buf_getElem, load64_le_buf_getElem]
  conv_rhs => rw [← List.take_append_drop 128 message]
  rw [List.drop_append_of_le_length (by rw [List.length_take]; omega),
    load64_le_append (by rw [List.length_drop, List.length_take]; omega)]

/-- A word with one more byte. -/
theorem load64_le_concat {s : Bytes} (hs : s.length < 8) (x : UInt8) :
    load64_le (s ++ [x]) = load64_le s ||| x.toUInt64 <<< (UInt64.ofNat s.length <<< 3) := by
  have hlt := leValue_lt s
  have hx := x.toNat_lt
  have hshift : (UInt64.ofNat s.length <<< 3).toNat = 8 * s.length := by
    rw [UInt64.toNat_shiftLeft, UInt64.toNat_ofNat_of_lt' (by change _ < 2 ^ 64; omega)]
    change s.length <<< 3 % 2 ^ 64 = _
    rw [Nat.shiftLeft_eq, Nat.mod_eq_of_lt (by omega), Nat.mul_comm]
  have hpow : 2 ^ (UInt64.ofNat s.length <<< 3).toNat = 256 ^ s.length := by
    rw [hshift, pow_mul]
    norm_num
  have hword : (load64_le s).toNat = leValue s := by
    rw [toNat_load64_le, List.take_of_length_le hs.le]
  have hfits : x.toUInt64.toNat * 256 ^ s.length < 2 ^ 64 := by
    change x.toNat * 256 ^ s.length < 2 ^ 64
    have htop : 256 ^ s.length ≤ 256 ^ 7 := Nat.pow_le_pow_right (by decide) (by omega)
    calc x.toNat * 256 ^ s.length ≤ 255 * 256 ^ 7 := Nat.mul_le_mul (by omega) htop
      _ < 2 ^ 64 := by norm_num
  have hor := toNat_or_shiftLeft_64 (x := load64_le s) (y := x.toUInt64)
    (by rw [hpow, hword]; exact hlt) (by rw [hshift]; omega) (by rwa [hpow])
  rw [← UInt64.toNat_inj, hor, hpow, hword, toNat_load64_le,
    List.take_of_length_le (by rw [List.length_append, List.length_singleton]; omega),
    leValue_append, leValue_cons, leValue_nil, UInt8.toNat_toUInt64]
  ring

/-- Putting a byte into the buffer, after those that are there. -/
theorem blake2b_set_input_eq {ctx : Blake2bCtx} {buffer : Bytes} (hlen : buffer.length < 128)
    (hinput : buffer ≠ [] → ctx.input = load64_le_buf buffer 16) (x : UInt8) :
    (blake2b_set_input ctx x buffer.length).input = load64_le_buf (buffer ++ [x]) 16 := by
  have hwords : (if buffer.length = 0 then Vector.replicate 16 0 else ctx.input) =
      load64_le_buf buffer 16 := by
    split_ifs with h
    · rw [List.length_eq_zero_iff.1 h]
      refine Vector.ext fun i hi => ?_
      rw [load64_le_buf_getElem, Vector.getElem_replicate, List.drop_nil]
      rfl
    · exact hinput (by rintro rfl; exact h rfl)
  refine Vector.ext fun i hi => ?_
  simp only [blake2b_set_input, hwords, Vector.getElem_mapIdx, load64_le_buf_getElem]
  have hword : buffer.length >>> 3 = buffer.length / 8 := Nat.shiftRight_eq_div_pow _ _
  have hbyte : buffer.length &&& 7 = buffer.length % 8 := Nat.and_two_pow_sub_one_eq_mod _ 3
  rw [hword, hbyte]
  rcases lt_trichotomy i (buffer.length / 8) with hi' | rfl | hi'
  · -- A word that is complete.
    rw [if_neg hi'.ne, List.drop_append_of_le_length (by omega),
      load64_le_append (by rw [List.length_drop]; omega)]
  · have hdrop : (buffer.drop (8 * (buffer.length / 8))).length = buffer.length % 8 := by
      rw [List.length_drop]
      omega
    rw [if_pos rfl, List.drop_append_of_le_length (by omega),
      load64_le_concat (by rw [hdrop]; omega), hdrop]
  · -- A word that is not begun.
    rw [if_neg hi'.ne', List.drop_of_length_le (by omega),
      List.drop_of_length_le (by rw [List.length_append, List.length_singleton]; omega)]

/-- Putting zeros after the bytes in the buffer does not change its words. -/
theorem foldl_set_input_zero {k : ℕ} {ctx : Blake2bCtx} {buffer : Bytes}
    (hk : buffer.length + k ≤ 128) (hne : buffer ≠ [] ∨ 0 < k)
    (hinput : buffer ≠ [] → ctx.input = load64_le_buf buffer 16) :
    (List.range' buffer.length k).foldl (fun ctx i => blake2b_set_input ctx 0 i) ctx =
      { ctx with input := load64_le_buf buffer 16 } := by
  induction k generalizing ctx buffer with
  | zero =>
    rw [← hinput (hne.resolve_right (lt_irrefl 0))]
    rfl
  | succ k ih =>
    have hset := blake2b_set_input_eq (by omega) hinput 0
    have hlen : (buffer ++ [0]).length = buffer.length + 1 := by simp
    have hrest : (List.range' (buffer ++ [0]).length k).foldl
        (fun ctx i => blake2b_set_input ctx 0 i) (blake2b_set_input ctx 0 buffer.length) = _ :=
      ih (by omega) (.inl (by simp)) fun _ => hset
    rw [hlen] at hrest
    rw [List.range'_succ, List.foldl_cons, hrest, ← load64_le_buf_append_zeros buffer 1]
    rfl

/-! ## Words of a digest -/

/-- A word is stored byte by byte. -/
theorem store64_le_eq (w : UInt64) : store64_le w =
    (List.range 8).map fun j => (w >>> UInt64.ofNat (8 * j) &&& 0xff).toUInt8 := by
  have hff : (0xff : UInt64).toNat = 2 ^ 8 - 1 := rfl
  have hbyte : ∀ j < 8, (w >>> UInt64.ofNat (8 * j) &&& 0xff).toUInt8.toNat =
      w.toNat / 2 ^ (8 * j) % 256 := by
    intro j hj
    have hk : (UInt64.ofNat (8 * j)).toNat = 8 * j :=
      UInt64.toNat_ofNat_of_lt' (by change _ < 2 ^ 64; omega)
    rw [UInt64.toNat_toUInt8, UInt64.toNat_and, hff, Nat.and_two_pow_sub_one_eq_mod,
      UInt64.toNat_shiftRight, hk, Nat.mod_eq_of_lt (b := 64) (by omega),
      Nat.shiftRight_eq_div_pow, Nat.mod_mod_of_dvd _ (by decide)]
  have hw := w.toNat_lt
  rw [← leValue_inj (by simp), leValue_store64_le]
  simp only [List.range_succ, List.range_zero, List.nil_append, List.cons_append, List.map_cons,
    List.map_nil, leValue_cons, leValue_nil]
  rw [hbyte 0 (by decide), hbyte 1 (by decide), hbyte 2 (by decide), hbyte 3 (by decide),
    hbyte 4 (by decide), hbyte 5 (by decide), hbyte 6 (by decide), hbyte 7 (by decide)]
  omega

/-- The bytes of whole words and those of the last one are the first `n` bytes. -/
theorem digest_eq {words : List UInt64} {n : ℕ} (hn : n ≤ 8 * words.length) :
    store64_le_buf (words.take (n >>> 3)) ++
      (List.range' ((n >>> 3) <<< 3) (n - (n >>> 3) <<< 3)).map (fun i =>
        (words.getD (i >>> 3) 0 >>> UInt64.ofNat (8 * (i &&& 7)) &&& 0xff).toUInt8) =
      (store64_le_buf words).take n := by
  have hnb : n >>> 3 = n / 8 := Nat.shiftRight_eq_div_pow n 3
  have hbits : (n >>> 3) <<< 3 = 8 * (n / 8) := by rw [hnb, Nat.shiftLeft_eq, Nat.mul_comm]
  rw [hbits, hnb]
  have hle : n / 8 ≤ words.length := by omega
  have hfront : (store64_le_buf (words.take (n / 8))).length = 8 * (n / 8) := by
    rw [length_store64_le_buf, List.length_take_of_le hle]
  have hwords : store64_le_buf words =
      store64_le_buf (words.take (n / 8)) ++ store64_le_buf (words.drop (n / 8)) := by
    rw [store64_le_buf, store64_le_buf, store64_le_buf, ← List.flatMap_append,
      List.take_append_drop]
  have hwhole : (store64_le_buf (words.take (n / 8))).take n = store64_le_buf (words.take (n / 8)) :=
    List.take_of_length_le (by rw [hfront]; omega)
  rw [hwords, List.take_append, hfront, hwhole]
  congr 1
  rcases Nat.eq_zero_or_pos (n - 8 * (n / 8)) with hr | hr
  · rw [hr]
    rfl
  · -- The bytes of the word after the whole ones.
    have hlt : n / 8 < words.length := by omega
    rw [List.drop_eq_getElem_cons hlt, store64_le_buf, List.flatMap_cons,
      List.take_append_of_le_length (by rw [length_store64_le]; omega), store64_le_eq,
      ← List.map_take, List.take_range, Nat.min_eq_left (by omega), List.range'_eq_map_range,
      List.map_map]
    refine List.map_congr_left fun j hj => ?_
    have hj' := List.mem_range.1 hj
    have hword : (8 * (n / 8) + j) >>> 3 = n / 8 := by
      rw [Nat.shiftRight_eq_div_pow]
      omega
    have hbyte : (8 * (n / 8) + j) &&& 7 = j := by
      rw [show 7 = 2 ^ 3 - 1 from rfl, Nat.and_two_pow_sub_one_eq_mod]
      omega
    simp only [Function.comp_apply, hword, hbyte, List.getD_eq_getElem?_getD,
      List.getElem?_eq_getElem hlt, Option.getD_some]

/-! ## BLAKE2b of whole messages -/

/-- The compression of a block into a hash, where the message has `offset` bytes up to
    the end of the block. -/
def blake2bF (hash : Vector UInt64 8) (block : Bytes) (offset : ℕ) (last : Bool) :
    Vector UInt64 8 :=
  (blake2b_compress
    { hash := hash
      input_offset := (UInt64.ofNat offset, UInt64.ofNat (offset / 2 ^ 64))
      input := load64_le_buf (block ++ List.replicate (128 - block.length) 0) 16
      input_idx := 0
      hash_size := 0 } (if last then 1 else 0)).hash

/-- The hash a message starts with, of the parameters. -/
def blake2bStart (hash_size key_size : ℕ) : Vector UInt64 8 :=
  iv.set (0 : Fin 8) (iv[(0 : Fin 8)] ^^^ ((0x01010000 : UInt64) ^^^ UInt64.ofNat key_size <<< 8 ^^^
    UInt64.ofNat hash_size))

/-- A hash and the number of bytes in it, with one more block that is not the last. -/
def absorb (s : Vector UInt64 8 × ℕ) (block : Bytes) : Vector UInt64 8 × ℕ :=
  (blake2bF s.1 block (s.2 + block.length) false, s.2 + block.length)

/-- The bytes that are hashed: the key, if there is one, fills the first block. -/
def keyed (key message : Bytes) : Bytes :=
  if key = [] then message else key ++ List.replicate (128 - key.length) 0 ++ message

/-- The hash of a message: all blocks are compressed in turn, the last one, which may
    be short or even empty, as the last. -/
def blake2b (hash_size : ℕ) (key message : Bytes) : Bytes :=
  let blocks := slices 128 (keyed key message)
  let s := blocks.dropLast.foldl absorb (blake2bStart hash_size key.length, 0)
  let hash := blake2bF s.1 (blocks.getLast?.getD []) (keyed key message).length true
  (store64_le_buf hash.toList).take hash_size

/-! ## The context as a buffer -/

/-- The context of a hash of `n` bytes holds the hash and the offset, and the bytes of
    the buffer as words. -/
structure Blake2bCtx.Buffers (ctx : Blake2bCtx) (n : ℕ) (p : (Vector UInt64 8 × ℕ) × Bytes) :
    Prop where
  hash : ctx.hash = p.1.1
  input_offset : ctx.input_offset = (UInt64.ofNat p.1.2, UInt64.ofNat (p.1.2 / 2 ^ 64))
  input_idx : ctx.input_idx = p.2.length
  length_le : p.2.length ≤ 128
  input : p.2 ≠ [] → ctx.input = load64_le_buf p.2 16
  hash_size : ctx.hash_size = n

namespace Blake2bCtx.Buffers

variable {ctx : Blake2bCtx} {n : ℕ} {p : (Vector UInt64 8 × ℕ) × Bytes}

/-- The offset is counted in two words. -/
theorem incr_offset (h : ctx.Buffers n p) : (blake2b_incr ctx).input_offset =
    (UInt64.ofNat (p.1.2 + p.2.length), UInt64.ofNat ((p.1.2 + p.2.length) / 2 ^ 64)) := by
  have hle := h.length_le
  have hy : (UInt64.ofNat p.2.length).toNat = p.2.length :=
    UInt64.toNat_ofNat_of_lt' (by change _ < 2 ^ 64; omega)
  have hx : (UInt64.ofNat p.1.2 + UInt64.ofNat p.2.length).toNat =
      (p.1.2 + p.2.length) % 2 ^ 64 := by
    rw [← UInt64.ofNat_add, UInt64.toNat_ofNat']
  simp only [blake2b_incr, h.input_offset, h.input_idx]
  refine Prod.ext (UInt64.ofNat_add _ _).symm ?_
  dsimp only
  -- The second word is counted up where the first one overflows.
  simp only [UInt64.lt_iff_toNat_lt, hx, hy]
  split_ifs with hcarry
  · rw [show (p.1.2 + p.2.length) / 2 ^ 64 = p.1.2 / 2 ^ 64 + 1 by omega, UInt64.ofNat_add]
    rfl
  · rw [show (p.1.2 + p.2.length) / 2 ^ 64 = p.1.2 / 2 ^ 64 by omega]

/-- Compressing the buffer. -/
theorem compress_hash (h : ctx.Buffers n p) (hinput : ctx.input = load64_le_buf p.2 16)
    (last : Bool) : (blake2b_compress (blake2b_incr ctx) (if last then 1 else 0)).hash =
      blake2bF p.1.1 p.2 (p.1.2 + p.2.length) last := by
  have hinput : (blake2b_incr ctx).input = load64_le_buf p.2 16 := hinput
  have hhash : (blake2b_incr ctx).hash = p.1.1 := h.hash
  rw [blake2bF, load64_le_buf_append_zeros]
  simp only [blake2b_compress, hinput, hhash, h.incr_offset]

/-- A full buffer is compressed, and empty then. -/
theorem end_block (h : ctx.Buffers n p) : (blake2b_end_block ctx).Buffers n
    (if p.2.length = 128 then (absorb p.1 p.2, []) else p) := by
  rw [blake2b_end_block, h.input_idx]
  split_ifs with hfull
  · have hne : p.2 ≠ [] := List.ne_nil_of_length_pos (by omega)
    exact {
      hash := h.compress_hash (h.input hne) false
      input_offset := h.incr_offset
      input_idx := rfl
      length_le := Nat.zero_le _
      input := fun h => absurd rfl h
      hash_size := h.hash_size }
  · exact h

/-- A byte is taken as the buffer takes it. -/
theorem push (h : ctx.Buffers n p) (x : UInt8) :
    ({ blake2b_set_input (blake2b_end_block ctx) x (blake2b_end_block ctx).input_idx with
      input_idx := (blake2b_end_block ctx).input_idx + 1 } : Blake2bCtx).Buffers n
      (BlockBuffer.Lazy.push 128 absorb p x) := by
  have hend := h.end_block
  have hle := h.length_le
  rw [BlockBuffer.Lazy.push]
  generalize blake2b_end_block ctx = ctx' at hend ⊢
  have hstep : ∀ {s : Vector UInt64 8 × ℕ} {buffer : Bytes}, ctx'.Buffers n (s, buffer) →
      buffer.length < 128 → ({ blake2b_set_input ctx' x ctx'.input_idx with
        input_idx := ctx'.input_idx + 1 } : Blake2bCtx).Buffers n (s, buffer ++ [x]) := by
    intro s buffer h' hlt
    exact {
      hash := h'.hash
      input_offset := h'.input_offset
      input_idx := by simp [h'.input_idx]
      length_le := by simp only [List.length_append, List.length_singleton]; omega
      input := fun _ => by
        rw [h'.input_idx]
        exact blake2b_set_input_eq hlt h'.input x
      hash_size := h'.hash_size }
  split_ifs at hend ⊢ with hfull
  · exact hstep hend (by decide)
  · exact hstep hend (by omega)

/-- The bytes of a piece, one by one. -/
theorem update (h : ctx.Buffers n p) (message : Bytes) :
    (blake2b_update ctx message).Buffers n (BlockBuffer.Lazy.pushAll 128 absorb p message) := by
  induction message generalizing ctx p with
  | nil => exact h
  | cons x message ih => exact ih (h.push x)

/-- A whole block at once. -/
theorem load (h : ctx.Buffers n p) {message : Bytes} (hmessage : 128 ≤ message.length) :
    ({ blake2b_end_block ctx with
      input := load64_le_buf message 16, input_idx := 128 } : Blake2bCtx).Buffers n
      (BlockBuffer.Lazy.pushBlock 128 absorb p (message.take 128)) := by
  have hend := h.end_block
  have hlen : (message.take 128).length = 128 := List.length_take_of_le hmessage
  rw [BlockBuffer.Lazy.pushBlock]
  generalize blake2b_end_block ctx = ctx' at hend ⊢
  have hload : ∀ {s : Vector UInt64 8 × ℕ} {buffer : Bytes}, ctx'.Buffers n (s, buffer) →
      ({ ctx' with input := load64_le_buf message 16, input_idx := 128 } : Blake2bCtx).Buffers n
        (s, message.take 128) := fun h' => {
    hash := h'.hash
    input_offset := h'.input_offset
    input_idx := hlen.symm
    length_le := hlen.le
    input := fun _ => (load64_le_buf_take hmessage).symm
    hash_size := h'.hash_size }
  split_ifs at hend ⊢ with hfull
  · exact hload hend
  · exact hload hend

/-- Whole blocks, one after the other. -/
theorem load_blocks (h : ctx.Buffers n p) {m : Bytes} {q : ℕ} (hq : 128 * q ≤ m.length) :
    ((List.range q).foldl (fun ctx i => { blake2b_end_block ctx with
      input := load64_le_buf (m.drop (128 * i)) 16, input_idx := 128 }) ctx).Buffers n
      ((BlockBuffer.firstBlocks 128 q m).foldl (BlockBuffer.Lazy.pushBlock 128 absorb) p) := by
  induction q with
  | zero => exact h
  | succ q ih =>
    rw [List.range_succ, List.foldl_append, BlockBuffer.firstBlocks_succ, List.foldl_append]
    exact (ih (by omega)).load (by rw [List.length_drop]; omega)

/-- A piece is taken as its bytes are, one by one. -/
theorem crypto_update (h : ctx.Buffers n p) (message : Bytes) :
    (crypto_blake2b_update ctx message).Buffers n
      (BlockBuffer.Lazy.pushAll 128 absorb p message) := by
  rw [crypto_blake2b_update]
  split_ifs with hnil
  · rw [List.length_eq_zero_iff.1 hnil]
    exact h
  have hle := h.length_le
  -- The first bytes fill the buffer, if there are enough.
  have halign : (align (UInt64.ofNat ctx.input_idx) 128).toNat = (128 - p.2.length) % 128 := by
    rw [toNat_align (k := 7) (by decide) rfl, h.input_idx,
      UInt64.toNat_ofNat_of_lt' (by change _ < 2 ^ 64; omega)]
    omega
  rw [halign]
  dsimp only
  generalize hk : min ((128 - p.2.length) % 128) message.length = k
  have hfirst := h.update (message.take k)
  generalize blake2b_update ctx (message.take k) = ctx₁ at hfirst ⊢
  rw [← List.take_append_drop k message, BlockBuffer.Lazy.pushAll_append,
    List.take_append_drop k message]
  generalize hm : message.drop k = m
  generalize hq : m.length >>> 7 = q
  rw [Nat.shiftRight_eq_div_pow] at hq
  have hfits : 128 * q ≤ m.length := by omega
  -- If a block comes then, the buffer is full, or nothing has come at all.
  have hblocks : q ≠ 0 → (BlockBuffer.Lazy.pushAll 128 absorb p (message.take k)).2.length = 128 ∨
      (BlockBuffer.Lazy.pushAll 128 absorb p (message.take k)).2 = [] := by
    intro hq0
    have hmlen : m.length = message.length - k := by rw [← hm, List.length_drop]
    have hk' : (message.take k).length = k := List.length_take_of_le (by omega)
    rw [show p = (p.1, p.2) from rfl, BlockBuffer.Lazy.pushAll_of_fits (by omega)]
    by_cases hp : p.2 = []
    · refine .inr ?_
      rw [hp, List.nil_append, List.take_eq_nil_iff]
      rw [hp, List.length_nil] at hk
      omega
    · refine .inl ?_
      have hpos := List.length_pos_of_ne_nil hp
      rw [List.length_append, hk']
      omega
  have hmiddle : (BlockBuffer.firstBlocks 128 q m).foldl (BlockBuffer.Lazy.pushBlock 128 absorb)
      (BlockBuffer.Lazy.pushAll 128 absorb p (message.take k)) =
      BlockBuffer.Lazy.pushAll 128 absorb
        (BlockBuffer.Lazy.pushAll 128 absorb p (message.take k)) (m.take (128 * q)) := by
    rcases eq_or_ne q 0 with rfl | hq0
    · rfl
    · rw [BlockBuffer.Lazy.foldl_pushBlock (by decide) (hblocks hq0)
        (BlockBuffer.length_of_mem_firstBlocks hfits), BlockBuffer.flatten_firstBlocks]
  have hrest := ((hfirst.load_blocks hfits).update (m.drop (128 * q)))
  rwa [hmiddle, ← BlockBuffer.Lazy.pushAll_append, List.take_append_drop] at hrest

/-- So are any number of pieces. -/
theorem pieces (h : ctx.Buffers n p) (ms : List Bytes) :
    (ms.foldl crypto_blake2b_update ctx).Buffers n
      (BlockBuffer.Lazy.pushAll 128 absorb p ms.flatten) := by
  induction ms generalizing ctx p with
  | nil => exact h
  | cons m ms ih =>
    rw [List.foldl_cons, List.flatten_cons, BlockBuffer.Lazy.pushAll_append]
    exact ih (h.crypto_update m)

/-- The buffer is filled up with zeros, and cleared if there is nothing in it. -/
theorem pad (h : ctx.Buffers n p) :
    (List.range' ctx.input_idx (128 - ctx.input_idx)).foldl
      (fun ctx i => blake2b_set_input ctx 0 i) ctx =
      { ctx with input := load64_le_buf p.2 16 } := by
  have hle := h.length_le
  have hne : p.2 ≠ [] ∨ 0 < 128 - p.2.length := by
    rcases hp : p.2 with _ | ⟨x, buffer⟩
    · exact .inr (by decide)
    · exact .inl (List.cons_ne_nil x buffer)
  have hpad := foldl_set_input_zero (k := 128 - p.2.length) (by omega) hne h.input
  rwa [← h.input_idx] at hpad

/-- The hash is that of the blocks compressed and the buffer. -/
theorem final (h : ctx.Buffers n p) (hn : n ≤ 64) : crypto_blake2b_final ctx =
    (store64_le_buf (blake2bF p.1.1 p.2 (p.1.2 + p.2.length) true).toList).take n := by
  have hctx : ({ ctx with input := load64_le_buf p.2 16 } : Blake2bCtx).Buffers n p :=
    { h with input := fun _ => rfl }
  rw [crypto_blake2b_final, h.pad]
  have hhash := hctx.compress_hash rfl true
  have hsize : (blake2b_compress (blake2b_incr
      { ctx with input := load64_le_buf p.2 16 }) 1).hash_size = n := h.hash_size
  rw [if_pos rfl] at hhash
  simp only [hhash, hsize]
  exact digest_eq (by rw [Vector.length_toList]; omega)

end Blake2bCtx.Buffers

/-- A context is initialised with the key in its buffer, if there is one. -/
theorem buffers_general_init (ctx : Blake2bCtx) (hash_size : ℕ) {key : Bytes}
    (hkey : key.length ≤ 128) : (crypto_blake2b_general_init ctx hash_size key).Buffers hash_size
      (BlockBuffer.Lazy.pushAll 128 absorb ((blake2bStart hash_size key.length, 0), [])
        (keyed key [])) := by
  have hoffset : ((0 : UInt64), (0 : UInt64)) = (UInt64.ofNat 0, UInt64.ofNat (0 / 2 ^ 64)) := by
    decide
  rw [crypto_blake2b_general_init, keyed]
  by_cases hnil : key = []
  · rw [if_pos hnil, if_neg (by rw [hnil]; decide)]
    exact ⟨rfl, hoffset, rfl, Nat.zero_le _, fun h => absurd rfl h, rfl⟩
  · have hlen : (key ++ List.replicate (128 - key.length) 0).length = 128 := by
      rw [List.length_append, List.length_replicate]
      omega
    rw [if_neg hnil, if_pos (List.length_pos_of_ne_nil hnil), List.append_nil,
      BlockBuffer.Lazy.pushAll_of_fits (by rw [hlen]; decide), List.nil_append]
    exact ⟨rfl, hoffset, hlen.symm, hlen.le, fun _ => rfl, rfl⟩

theorem foldl_absorb_snd (s : Vector UInt64 8 × ℕ) (blocks : List Bytes) :
    (blocks.foldl absorb s).2 = s.2 + blocks.flatten.length := by
  induction blocks generalizing s with
  | nil => rfl
  | cons block blocks ih =>
    rw [List.foldl_cons, ih, List.flatten_cons, List.length_append, absorb, Nat.add_assoc]

/-- The bytes compressed and those of the last block are all. -/
theorem length_dropLast_add_last (data : Bytes) : (slices 128 data).dropLast.flatten.length +
    ((slices 128 data).getLast?.getD []).length = data.length := by
  conv_rhs => rw [← flatten_slices (n := 128) (by decide) data]
  rcases eq_or_ne (slices 128 data) [] with hnil | hne
  · rw [hnil]
    rfl
  · rw [List.getLast?_eq_some_getLast hne, Option.getD_some]
    conv_rhs => rw [← List.dropLast_append_getLast hne]
    rw [List.flatten_append, List.length_append, List.flatten_singleton]

/-- The hash of a message that comes in pieces, into a context that held anything, is
    that of the whole message. -/
theorem hash_of_pieces (ctx : Blake2bCtx) {hash_size : ℕ} (hsize : hash_size ≤ 64) {key : Bytes}
    (hkey : key.length ≤ 128) (pieces : List Bytes) :
    crypto_blake2b_final (pieces.foldl crypto_blake2b_update
      (crypto_blake2b_general_init ctx hash_size key)) =
      blake2b hash_size key pieces.flatten := by
  have hkeyed : keyed key [] ++ pieces.flatten = keyed key pieces.flatten := by
    rw [keyed, keyed]
    split_ifs
    · rfl
    · rw [List.append_nil]
  have hbuffers := (buffers_general_init ctx hash_size hkey).pieces pieces
  rw [← BlockBuffer.Lazy.pushAll_append, hkeyed, BlockBuffer.Lazy.pushAll_nil_eq (by decide)]
    at hbuffers
  rw [hbuffers.final hsize, foldl_absorb_snd, Nat.zero_add, length_dropLast_add_last]
  rfl

/-- In particular if it comes as a whole. -/
theorem crypto_blake2b_general_eq {hash_size : ℕ} (hsize : hash_size ≤ 64) {key : Bytes}
    (hkey : key.length ≤ 128) (message : Bytes) :
    crypto_blake2b_general hash_size key message = blake2b hash_size key message := by
  have hpieces := hash_of_pieces .zero hsize hkey [message]
  rwa [List.flatten_singleton] at hpieces

/-- A hash has the length asked for. -/
theorem length_crypto_blake2b_general {hash_size : ℕ} (hsize : hash_size ≤ 64) {key : Bytes}
    (hkey : key.length ≤ 128) (message : Bytes) :
    (crypto_blake2b_general hash_size key message).length = hash_size := by
  rw [crypto_blake2b_general_eq hsize hkey, blake2b, List.length_take, length_store64_le_buf,
    Vector.length_toList]
  omega

/-- However a message is cut into pieces, and whatever the context held, its hash is the one
    that is computed at once; it has the length asked for. -/
theorem crypto_blake2b_pieces (ctx : Blake2bCtx) {hash_size : ℕ} (hsize : hash_size ≤ 64)
    {key : Bytes} (hkey : key.length ≤ 128) (pieces : List Bytes) :
    crypto_blake2b_final (pieces.foldl crypto_blake2b_update
        (crypto_blake2b_general_init ctx hash_size key)) = blake2b hash_size key pieces.flatten ∧
      crypto_blake2b_general hash_size key pieces.flatten = blake2b hash_size key pieces.flatten ∧
      (blake2b hash_size key pieces.flatten).length = hash_size := by
  have hgeneral := crypto_blake2b_general_eq hsize hkey pieces.flatten
  refine ⟨hash_of_pieces ctx hsize hkey pieces, hgeneral, ?_⟩
  rw [← hgeneral, length_crypto_blake2b_general hsize hkey]

theorem crypto_blake2b_pieces_stale :
    crypto_blake2b_final ([[0x61], [], [0x62, 0x63]].foldl crypto_blake2b_update
        (crypto_blake2b_general_init { Blake2bCtx.zero with input_idx := 77 } 5 [0x6b])) =
        blake2b 5 [0x6b] [0x61, 0x62, 0x63] ∧
      crypto_blake2b_general 5 [0x6b] [0x61, 0x62, 0x63] =
        blake2b 5 [0x6b] [0x61, 0x62, 0x63] ∧
      (blake2b 5 [0x6b] [0x61, 0x62, 0x63]).length = 5 :=
  crypto_blake2b_pieces { Blake2bCtx.zero with input_idx := 77 } (by decide) (by decide)
    [[0x61], [], [0x62, 0x63]]

/-- The private key of the first account of a seed. -/
example : crypto_blake2b_general 32 []
    ([0xAF, 0x30, 0x15, 0x3E, 0x69, 0x7B, 0xCF, 0x97, 0x62, 0x36, 0xC6, 0x89, 0x95, 0x77, 0x4A, 0xA0,
      0x79, 0x7B, 0x8D, 0x67, 0xE4, 0x6D, 0xDC, 0x15, 0xE1, 0x69, 0x43, 0x17, 0xDA, 0x03, 0xBF, 0x84,
      0, 0, 0, 0]) =
    [0x4B, 0x1B, 0xA2, 0x84, 0xAB, 0xB8, 0xCD, 0x98, 0x47, 0x47, 0xE4, 0x84, 0x2B, 0xC5, 0x16, 0xCD,
      0x98, 0xEF, 0x52, 0x66, 0xDF, 0x71, 0xD4, 0xFD, 0x79, 0x4D, 0xA1, 0xA9, 0x1F, 0x49, 0xCA,
      0xB1] := by
  decide +kernel

end MonocypherC
