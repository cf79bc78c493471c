import NanoSwift.Monocypher.Words

/-!
# ChaCha20

The stream cipher of Monocypher. A text is encrypted in whole blocks, word by word, and what
is left of it byte by byte; the counter is kept in two words of the state.

* The state that is counted on is the one of the next counter (`nextInput_eq`).
* What comes out is the text, xor the bytes of the blocks of the key
  (`crypto_chacha20_ctr_eq`).
* Encrypting twice gives the text, and a text may come in pieces that are whole blocks but for
  the last one (`encryptPieces_twice`).
-/

namespace MonocypherC

open NanoSwift (Bytes)

/-! ## Definitions -/

def rotl32 (x n : UInt32) : UInt32 := (x <<< n) ^^^ (x >>> (32 - n))

/-- A quarter of a round, on four of the words. -/
def QUARTERROUND (t : List UInt32) : ℕ × ℕ × ℕ × ℕ → List UInt32
  | (a, b, c, d) =>
    let t := t.set a (t.getD a 0 + t.getD b 0)
    let t := t.set d (rotl32 (t.getD d 0 ^^^ t.getD a 0) 16)
    let t := t.set c (t.getD c 0 + t.getD d 0)
    let t := t.set b (rotl32 (t.getD b 0 ^^^ t.getD c 0) 12)
    let t := t.set a (t.getD a 0 + t.getD b 0)
    let t := t.set d (rotl32 (t.getD d 0 ^^^ t.getD a 0) 8)
    let t := t.set c (t.getD c 0 + t.getD d 0)
    t.set b (rotl32 (t.getD b 0 ^^^ t.getD c 0) 7)

/-- Two rounds: the columns, then the diagonals. -/
def chacha20_rounds.twoRounds (t : List UInt32) : List UInt32 :=
  [(0, 4, 8, 12), (1, 5, 9, 13), (2, 6, 10, 14), (3, 7, 11, 15),
    (0, 5, 10, 15), (1, 6, 11, 12), (2, 7, 8, 13), (3, 4, 9, 14)].foldl QUARTERROUND t

def chacha20_rounds (input : List UInt32) : List UInt32 := chacha20_rounds.twoRounds^[10] input

/-- The text `expand 32-byte k`. -/
def chacha20_init_key.constant : Bytes :=
  [0x65, 0x78, 0x70, 0x61, 0x6e, 0x64, 0x20, 0x33, 0x32, 0x2d, 0x62, 0x79, 0x74, 0x65, 0x20, 0x6b]

def chacha20_init_key (key : Bytes) : List UInt32 :=
  load32_le_buf chacha20_init_key.constant 4 ++ load32_le_buf key 8

/-- The words that are added to the text. -/
def crypto_chacha20_ctr.pool (input : List UInt32) : List UInt32 :=
  (chacha20_rounds input).zipWith (· + ·) input

/-- A whole block of the text; without one, the words themselves. -/
def crypto_chacha20_ctr.whole (input : List UInt32) (plain_text : Option Bytes) : Bytes :=
  match plain_text with
  | some plain_text => store32_le_buf
      ((crypto_chacha20_ctr.pool input).zipWith (· ^^^ ·) (load32_le_buf plain_text 16))
  | none => store32_le_buf (crypto_chacha20_ctr.pool input)

/-- Counts on. -/
def crypto_chacha20_ctr.nextInput (input : List UInt32) : List UInt32 :=
  let input := input.set 12 (input.getD 12 0 + 1)
  if input.getD 12 0 = 0 then input.set 13 (input.getD 13 0 + 1) else input

open crypto_chacha20_ctr in
/-- The cipher text, and the counter after it. -/
def crypto_chacha20_ctr (plain_text : Option Bytes) (text_size : ℕ) (key nonce : Bytes)
    (ctr : UInt64) : Bytes × UInt64 :=
  let input := chacha20_init_key key ++
    ([ctr.toUInt32, (ctr >>> 32).toUInt32] ++ load32_le_buf nonce 2)
  let nb_blocks := text_size >>> 6
  let r := (List.range nb_blocks).foldl (fun (r : Bytes × List UInt32) i =>
    (r.1 ++ whole r.2 (plain_text.map (·.drop (64 * i))), nextInput r.2)) ([], input)
  let text_size := text_size &&& 63
  -- The last block, byte by byte; without a text, zeros.
  let plain_text := (plain_text.map (·.drop (64 * nb_blocks))).getD (List.replicate 128 0)
  let last := if 0 < text_size then
    ((store32_le_buf (pool r.2)).take text_size).zipWith (· ^^^ ·) plain_text else []
  (r.1 ++ last, (r.2.getD 12 0).toUInt64 + (r.2.getD 13 0).toUInt64 <<< 32 +
    if 0 < text_size then 1 else 0)

/-- With a nonce of 12 bytes: the first of them stand above a counter of 32 bits. -/
def crypto_ietf_chacha20_ctr (plain_text : Option Bytes) (text_size : ℕ) (key nonce : Bytes)
    (ctr : UInt32) : Bytes × UInt32 :=
  let big_ctr := ctr.toUInt64 + (load32_le nonce).toUInt64 <<< 32
  let r := crypto_chacha20_ctr plain_text text_size key (nonce.drop 4) big_ctr
  (r.1, r.2.toUInt32)

/-! ## Blocks of the key -/

open crypto_chacha20_ctr

/-- The state at a counter. -/
def inputAt (key nonce : Bytes) (ctr : UInt64) : List UInt32 :=
  chacha20_init_key key ++ ([ctr.toUInt32, (ctr >>> 32).toUInt32] ++ load32_le_buf nonce 2)

theorem length_QUARTERROUND (t : List UInt32) (q : ℕ × ℕ × ℕ × ℕ) :
    (QUARTERROUND t q).length = t.length := by
  simp only [QUARTERROUND, List.length_set]

theorem length_twoRounds (t : List UInt32) : (chacha20_rounds.twoRounds t).length = t.length := by
  simp only [chacha20_rounds.twoRounds, List.foldl_cons, List.foldl_nil, length_QUARTERROUND]

theorem length_rounds (input : List UInt32) : (chacha20_rounds input).length = input.length := by
  rw [chacha20_rounds]
  generalize 10 = n
  induction n generalizing input with
  | zero => rfl
  | succ n ih => rw [Function.iterate_succ_apply, ih, length_twoRounds]

theorem length_pool (key nonce : Bytes) (ctr : UInt64) :
    (pool (inputAt key nonce ctr)).length = 16 := by
  simp [pool, length_rounds, inputAt, chacha20_init_key, load32_le_buf]

/-- The bytes of the block at a counter. -/
def keyBlock (key nonce : Bytes) (ctr : UInt64) : Bytes :=
  store32_le_buf (pool (inputAt key nonce ctr))

/-- The bytes of `n` blocks. -/
def keystream (key nonce : Bytes) (ctr : UInt64) (n : ℕ) : Bytes :=
  (List.range n).flatMap fun i => keyBlock key nonce (ctr + UInt64.ofNat i)

theorem length_keyBlock (key nonce : Bytes) (ctr : UInt64) :
    (keyBlock key nonce ctr).length = 64 := by
  rw [keyBlock, length_store32_le_buf, length_pool]

theorem keystream_succ (key nonce : Bytes) (ctr : UInt64) (n : ℕ) :
    keystream key nonce ctr (n + 1) =
      keystream key nonce ctr n ++ keyBlock key nonce (ctr + UInt64.ofNat n) := by
  simp [keystream, List.range_succ]

theorem length_keystream (key nonce : Bytes) (ctr : UInt64) (n : ℕ) :
    (keystream key nonce ctr n).length = 64 * n := by
  induction n with
  | zero => rfl
  | succ n ih => rw [keystream_succ, List.length_append, ih, length_keyBlock, Nat.mul_succ]

theorem keystream_add (key nonce : Bytes) (ctr : UInt64) (n m : ℕ) :
    keystream key nonce ctr (n + m) =
      keystream key nonce ctr n ++ keystream key nonce (ctr + UInt64.ofNat n) m := by
  induction m with
  | zero => simp [keystream]
  | succ m ih =>
    rw [← Nat.add_assoc, keystream_succ, ih, keystream_succ, List.append_assoc, UInt64.ofNat_add,
      UInt64.add_assoc]

/-- Counting on: the second word is changed where the first one wraps around. -/
theorem nextInput_eq (key nonce : Bytes) (ctr : UInt64) :
    nextInput (inputAt key nonce ctr) = inputAt key nonce (ctr + 1) := by
  have hlow : (ctr + 1).toUInt32 = ctr.toUInt32 + 1 := by simp
  have hhigh : ((ctr + 1) >>> 32).toUInt32 =
      if ctr.toUInt32 + 1 = 0 then (ctr >>> 32).toUInt32 + 1 else (ctr >>> 32).toUInt32 := by
    have hctr := ctr.toNat_lt
    split_ifs with h
    all_goals
      rw [← UInt32.toNat_inj] at h ⊢
      simp only [UInt32.toNat_add, UInt64.toNat_toUInt32, UInt64.toNat_shiftRight, UInt64.toNat_add,
        UInt32.reduceToNat, UInt64.reduceToNat, Nat.shiftRight_eq_div_pow, Nat.reduceMod,
        Nat.reducePow] at h ⊢
      omega
  rw [inputAt, inputAt, hlow, hhigh]
  generalize ctr.toUInt32 = low
  generalize (ctr >>> 32).toUInt32 = high
  change (if low + 1 = 0 then _ else _) = _
  split_ifs <;> rfl

/-! ## Words and bytes -/

theorem store32_le_load32_le {s : Bytes} (hs : 4 ≤ s.length) :
    store32_le (load32_le s) = s.take 4 := by
  rw [← leValue_inj (by rw [length_store32_le, List.length_take_of_le hs]), leValue_store32_le,
    toNat_load32_le]

theorem store32_le_xor (x y : UInt32) :
    store32_le (x ^^^ y) = (store32_le x).zipWith (· ^^^ ·) (store32_le y) := by
  have hbyte (z : UInt32) : (z &&& 0xff).toUInt8 = z.toUInt8 := by
    rw [UInt32.toUInt8_and]
    exact UInt8.and_neg_one
  simp only [store32_le, List.zipWith_cons_cons, List.zipWith_nil_right, UInt32.shiftRight_xor,
    hbyte, UInt32.toUInt8_xor]

/-- Words that are xor-ed with those of a text, as bytes. -/
theorem store32_le_buf_xor (ws : List UInt32) {s : Bytes} (hs : 4 * ws.length ≤ s.length) :
    store32_le_buf (ws.zipWith (· ^^^ ·) (load32_le_buf s ws.length)) =
      (store32_le_buf ws).zipWith (· ^^^ ·) (s.take (4 * ws.length)) := by
  induction ws generalizing s with
  | nil => rfl
  | cons w ws ih =>
    rw [List.length_cons] at hs ⊢
    have hload : load32_le_buf s (ws.length + 1) =
        load32_le s :: load32_le_buf (s.drop 4) ws.length := by
      simp [load32_le_buf, List.range_succ_eq_map, Nat.mul_succ, Nat.add_comm]
    have htake : s.take (4 * (ws.length + 1)) = s.take 4 ++ (s.drop 4).take (4 * ws.length) := by
      rw [← List.take_add, Nat.mul_succ, Nat.add_comm]
    have hrest := ih (s := s.drop 4) (by rw [List.length_drop]; omega)
    simp only [store32_le_buf, List.flatMap_cons, hload, List.zipWith_cons_cons] at hrest ⊢
    rw [hrest, htake, List.zipWith_append, store32_le_xor, store32_le_load32_le (by omega)]
    rw [length_store32_le, List.length_take_of_le (by omega)]

/-! ## Encryption -/

/-- Bytes beyond those of the text are not used. -/
theorem zipWith_take_left {ks s : Bytes} {n : ℕ} (h : s.length ≤ n) :
    (ks.take n).zipWith (· ^^^ ·) s = ks.zipWith (· ^^^ ·) s := by
  have htake : (ks.zipWith (· ^^^ ·) s).take n = (ks.take n).zipWith (· ^^^ ·) (s.take n) :=
    List.take_zipWith
  rw [List.take_of_length_le h, List.take_of_length_le] at htake
  · exact htake.symm
  · rw [List.length_zipWith]
    omega

/-- The bytes of a text are those before a place and those after it. -/
theorem zipWith_append_left (ks ks' : Bytes) {s : Bytes} {n : ℕ} (hn : ks.length = n)
    (hs : n ≤ s.length) : (ks ++ ks').zipWith (· ^^^ ·) s =
      ks.zipWith (· ^^^ ·) (s.take n) ++ ks'.zipWith (· ^^^ ·) (s.drop n) := by
  have hlen : ks.length = (s.take n).length := by rw [hn, List.length_take_of_le hs]
  rw [← List.zipWith_append hlen, List.take_append_drop]

theorem whole_eq (key nonce : Bytes) (ctr : UInt64) {s : Bytes} (hs : 64 ≤ s.length) :
    whole (inputAt key nonce ctr) (some s) =
      (keyBlock key nonce ctr).zipWith (· ^^^ ·) (s.take 64) := by
  have hlen := length_pool key nonce ctr
  have hxor := store32_le_buf_xor (pool (inputAt key nonce ctr)) (s := s) (by rw [hlen]; omega)
  rw [hlen] at hxor
  exact hxor

/-- After `n` whole blocks. -/
theorem foldl_whole (key nonce : Bytes) (ctr : UInt64) {s : Bytes} {n : ℕ}
    (hn : 64 * n ≤ s.length) : (List.range n).foldl (fun (r : Bytes × List UInt32) i =>
        (r.1 ++ whole r.2 ((some s).map (·.drop (64 * i))), nextInput r.2))
        ([], inputAt key nonce ctr) =
      ((keystream key nonce ctr n).zipWith (· ^^^ ·) (s.take (64 * n)),
        inputAt key nonce (ctr + UInt64.ofNat n)) := by
  induction n with
  | zero => simp [keystream]
  | succ n ih =>
    have hdrop : 64 ≤ (s.drop (64 * n)).length := by rw [List.length_drop]; omega
    have hlen : (keystream key nonce ctr n).length = (s.take (64 * n)).length := by
      rw [length_keystream, List.length_take_of_le (by omega)]
    rw [List.range_succ, List.foldl_append, ih (by omega), List.foldl_cons, List.foldl_nil]
    dsimp only
    rw [Option.map_some, whole_eq key nonce _ hdrop, nextInput_eq, keystream_succ, Nat.mul_succ,
      List.take_add, List.zipWith_append hlen, UInt64.add_assoc, UInt64.ofNat_add]
    rfl

/-- The counter in two words. -/
theorem counter_inputAt (key nonce : Bytes) (ctr : UInt64) :
    ((inputAt key nonce ctr).getD 12 0).toUInt64 +
      ((inputAt key nonce ctr).getD 13 0).toUInt64 <<< 32 = ctr := by
  have hctr := ctr.toNat_lt
  change ctr.toUInt32.toUInt64 + (ctr >>> 32).toUInt32.toUInt64 <<< 32 = ctr
  rw [← UInt64.toNat_inj]
  simp only [UInt64.toNat_add, UInt32.toNat_toUInt64, UInt64.toNat_toUInt32, UInt64.toNat_shiftLeft,
    UInt64.toNat_shiftRight, UInt64.reduceToNat, Nat.shiftLeft_eq, Nat.shiftRight_eq_div_pow,
    Nat.reduceMod, Nat.reducePow]
  omega

/-- The number of blocks that a text of `n` bytes begins. -/
def blocks (n : ℕ) : ℕ := (n + 63) / 64

/-- A text is encrypted by the bytes of as many blocks as it needs, which are counted. -/
theorem crypto_chacha20_ctr_eq (s key nonce : Bytes) (ctr : UInt64) :
    crypto_chacha20_ctr (some s) s.length key nonce ctr =
      ((keystream key nonce ctr (blocks s.length)).zipWith (· ^^^ ·) s,
        ctr + UInt64.ofNat (blocks s.length)) := by
  have hnb : s.length >>> 6 = s.length / 64 := Nat.shiftRight_eq_div_pow _ _
  have hrest : s.length &&& 63 = s.length % 64 := Nat.and_two_pow_sub_one_eq_mod _ 6
  rw [crypto_chacha20_ctr, hnb, hrest, ← inputAt, foldl_whole key nonce ctr (Nat.mul_div_le _ _)]
  dsimp only
  rw [counter_inputAt, Option.map_some, Option.getD_some]
  have hdiv := Nat.div_add_mod s.length 64
  split_ifs with hpos
  · -- A last block, of which only the first bytes are used.
    have hblocks : blocks s.length = s.length / 64 + 1 := by rw [blocks]; omega
    have hlast : (s.drop (64 * (s.length / 64))).length ≤ s.length % 64 := by
      rw [List.length_drop]; omega
    rw [hblocks, keystream_succ, zipWith_append_left _ _ (length_keystream _ _ _ _) (by omega),
      zipWith_take_left hlast, UInt64.ofNat_add, ← UInt64.add_assoc]
    rfl
  · have hblocks : blocks s.length = s.length / 64 := by rw [blocks]; omega
    rw [hblocks, List.append_nil, List.take_of_length_le (by omega), UInt64.add_zero]

/-- Zeros leave the bytes as they are. -/
theorem zipWith_zeros {ks : Bytes} {n : ℕ} (h : ks.length ≤ n) :
    ks.zipWith (· ^^^ ·) (List.replicate n 0) = ks := by
  refine List.ext_getElem (by simpa using h) fun i _ _ => ?_
  rw [List.getElem_zipWith, List.getElem_replicate, UInt8.xor_zero]

theorem foldl_whole_none (key nonce : Bytes) (ctr : UInt64) (n : ℕ) :
    (List.range n).foldl (fun (r : Bytes × List UInt32) i =>
        (r.1 ++ whole r.2 ((none : Option Bytes).map (·.drop (64 * i))), nextInput r.2))
        ([], inputAt key nonce ctr) =
      (keystream key nonce ctr n, inputAt key nonce (ctr + UInt64.ofNat n)) := by
  induction n with
  | zero => simp [keystream]
  | succ n ih =>
    rw [List.range_succ, List.foldl_append, ih, List.foldl_cons, List.foldl_nil]
    dsimp only
    rw [nextInput_eq, keystream_succ, UInt64.add_assoc, UInt64.ofNat_add]
    rfl

/-- Without a text, the bytes are those that texts are encrypted by. -/
theorem crypto_chacha20_ctr_none (n : ℕ) (key nonce : Bytes) (ctr : UInt64) :
    crypto_chacha20_ctr none n key nonce ctr =
      ((keystream key nonce ctr (blocks n)).take n, ctr + UInt64.ofNat (blocks n)) := by
  have hnb : n >>> 6 = n / 64 := Nat.shiftRight_eq_div_pow _ _
  have hrest : n &&& 63 = n % 64 := Nat.and_two_pow_sub_one_eq_mod _ 6
  rw [crypto_chacha20_ctr, hnb, hrest, ← inputAt, foldl_whole_none]
  dsimp only
  rw [counter_inputAt, Option.map_none, Option.getD_none]
  have hdiv := Nat.div_add_mod n 64
  have hlen := length_keystream key nonce ctr (n / 64)
  split_ifs with hpos
  · have hblocks : blocks n = n / 64 + 1 := by rw [blocks]; omega
    have hlast : n - (keystream key nonce ctr (n / 64)).length = n % 64 := by omega
    have htake (block : Bytes) : (keystream key nonce ctr (n / 64) ++ block).take n =
        keystream key nonce ctr (n / 64) ++ block.take (n % 64) := by
      rw [List.take_append, List.take_of_length_le (by omega), hlast]
    have hshort :
        ((keyBlock key nonce (ctr + UInt64.ofNat (n / 64))).take (n % 64)).length ≤ 128 := by
      rw [List.length_take, length_keyBlock]
      omega
    rw [hblocks, keystream_succ, htake, UInt64.ofNat_add, ← UInt64.add_assoc, ← keyBlock,
      zipWith_zeros hshort]
    rfl
  · have hblocks : blocks n = n / 64 := by rw [blocks]; omega
    rw [hblocks, List.append_nil, List.take_of_length_le (by omega), UInt64.add_zero]

/-! ## Pieces -/

/-- Encrypts the pieces of a text, each from the counter after the one before it. -/
def encryptPieces (key nonce : Bytes) : UInt64 → List Bytes → Bytes × UInt64
  | ctr, [] => ([], ctr)
  | ctr, piece :: pieces =>
    let r := crypto_chacha20_ctr (some piece) piece.length key nonce ctr
    let r' := encryptPieces key nonce r.2 pieces
    (r.1 ++ r'.1, r'.2)

/-- All pieces but the last are whole blocks. -/
def WholeBlocks (pieces : List Bytes) : Prop := ∀ piece ∈ pieces.dropLast, 64 ∣ piece.length

/-- A text in pieces is encrypted as if it were one. -/
theorem encryptPieces_eq (key nonce : Bytes) (ctr : UInt64) {pieces : List Bytes}
    (h : WholeBlocks pieces) : encryptPieces key nonce ctr pieces =
      crypto_chacha20_ctr (some pieces.flatten) pieces.flatten.length key nonce ctr := by
  induction pieces generalizing ctr with
  | nil => rw [crypto_chacha20_ctr_eq]; simp [encryptPieces, blocks]
  | cons piece pieces ih =>
    rw [encryptPieces]
    rcases eq_or_ne pieces [] with rfl | hne
    · simp [encryptPieces]
    · rw [WholeBlocks, List.dropLast_cons_of_ne_nil hne, List.forall_mem_cons] at h
      obtain ⟨⟨q, hq⟩, hrest⟩ := h
      have hlen := length_keystream key nonce ctr q
      have hblocks : blocks piece.length = q := by rw [blocks]; omega
      have hsum : blocks (piece ++ pieces.flatten).length = q + blocks pieces.flatten.length := by
        rw [List.length_append, blocks, blocks]
        omega
      rw [ih _ hrest, List.flatten_cons]
      simp only [crypto_chacha20_ctr_eq]
      rw [hblocks, hsum, keystream_add, List.zipWith_append (by omega), UInt64.ofNat_add,
        UInt64.add_assoc]

theorem xor_xor (ks s : Bytes) (h : s.length ≤ ks.length) :
    ks.zipWith (· ^^^ ·) (ks.zipWith (· ^^^ ·) s) = s := by
  refine List.ext_getElem (by simpa using h) fun i _ _ => ?_
  rw [List.getElem_zipWith, List.getElem_zipWith, ← UInt8.xor_assoc, UInt8.xor_self, UInt8.zero_xor]

/-- What has been encrypted in pieces is decrypted in any others, and both count the blocks
    that the text begins. -/
theorem encryptPieces_twice (key nonce : Bytes) (ctr : UInt64) {pieces pieces' : List Bytes}
    (h : WholeBlocks pieces) (h' : WholeBlocks pieces')
    (hcipher : pieces'.flatten = (encryptPieces key nonce ctr pieces).1) :
    encryptPieces key nonce ctr pieces' =
        (pieces.flatten, ctr + UInt64.ofNat (blocks pieces.flatten.length)) ∧
      (encryptPieces key nonce ctr pieces).2 =
        ctr + UInt64.ofNat (blocks pieces.flatten.length) ∧
      pieces'.flatten.length = pieces.flatten.length := by
  rw [encryptPieces_eq key nonce ctr h, crypto_chacha20_ctr_eq] at hcipher ⊢
  have hle : pieces.flatten.length ≤
      (keystream key nonce ctr (blocks pieces.flatten.length)).length := by
    rw [length_keystream, blocks]
    omega
  have hlen : pieces'.flatten.length = pieces.flatten.length := by
    rw [hcipher, List.length_zipWith, Nat.min_eq_right hle]
  refine ⟨?_, rfl, hlen⟩
  rw [encryptPieces_eq key nonce ctr h', crypto_chacha20_ctr_eq, hlen, hcipher]
  exact Prod.ext (xor_xor _ _ hle) rfl

theorem encryptPieces_twice_split :
    encryptPieces (List.replicate 32 0) (List.replicate 8 0) 0
          [(encryptPieces (List.replicate 32 0) (List.replicate 8 0) 0
            [List.replicate 64 1, [2, 3]]).1] =
        ([List.replicate 64 1, [2, 3]].flatten,
          0 + UInt64.ofNat (blocks [List.replicate 64 (1 : UInt8), [2, 3]].flatten.length)) ∧
      (encryptPieces (List.replicate 32 0) (List.replicate 8 0) 0
          [List.replicate 64 1, [2, 3]]).2 =
        0 + UInt64.ofNat (blocks [List.replicate 64 (1 : UInt8), [2, 3]].flatten.length) ∧
      [(encryptPieces (List.replicate 32 0) (List.replicate 8 0) 0
          [List.replicate 64 1, [2, 3]]).1].flatten.length =
        [List.replicate 64 (1 : UInt8), [2, 3]].flatten.length :=
  encryptPieces_twice (List.replicate 32 0) (List.replicate 8 0) 0
    (by simp only [WholeBlocks, List.dropLast_cons_cons, List.dropLast_singleton,
      List.forall_mem_singleton, List.length_replicate, dvd_refl])
    (by simp only [WholeBlocks, List.dropLast_singleton, List.not_mem_nil, false_imp_iff,
      implies_true])
    List.flatten_singleton

example : (crypto_chacha20_ctr none 8 (List.replicate 32 0) (List.replicate 8 0) 0).1 =
    [0x76, 0xb8, 0xe0, 0xad, 0xa0, 0xf1, 0x3d, 0x90] := by decide +kernel

/-- With a nonce of 12 bytes, a text in two pieces is encrypted as if it were one as long as the
    counter does not wrap around: beyond that the whole text counts on in the nonce, but the
    counter that is returned starts again. -/
theorem crypto_ietf_chacha20_ctr_append (key nonce s t : Bytes) (ctr : UInt32)
    (hs : 64 ∣ s.length) (hctr : ctr.toNat + s.length / 64 < 2 ^ 32) :
    let r := crypto_ietf_chacha20_ctr (some s) s.length key nonce ctr
    let r' := crypto_ietf_chacha20_ctr (some t) t.length key nonce r.2
    crypto_ietf_chacha20_ctr (some (s ++ t)) (s ++ t).length key nonce ctr =
      (r.1 ++ r'.1, r'.2) := by
  have hwhole : WholeBlocks [s, t] := by simpa [WholeBlocks] using hs
  have hpieces := encryptPieces_eq key (nonce.drop 4)
    (ctr.toUInt64 + (load32_le nonce).toUInt64 <<< 32) hwhole
  obtain ⟨q, hq⟩ := hs
  have hblocks : blocks s.length = q := by rw [blocks]; omega
  -- The counter in between is the one of the first piece, without a carry.
  have hcount :
      (ctr.toUInt64 + (load32_le nonce).toUInt64 <<< 32 + UInt64.ofNat q).toUInt32.toUInt64 +
        (load32_le nonce).toUInt64 <<< 32 =
          ctr.toUInt64 + (load32_le nonce).toUInt64 <<< 32 + UInt64.ofNat q := by
    have hnonce := (load32_le nonce).toNat_lt
    generalize load32_le nonce = high at hnonce ⊢
    rw [← UInt64.toNat_inj]
    simp only [UInt64.toNat_add, UInt32.toNat_toUInt64, UInt64.toNat_toUInt32,
      UInt64.toNat_shiftLeft, UInt64.toNat_ofNat', UInt64.reduceToNat, Nat.shiftLeft_eq,
      Nat.reduceMod, Nat.reducePow]
    omega
  simp only [encryptPieces, List.flatten_cons, List.flatten_nil, List.append_nil] at hpieces
  dsimp only [crypto_ietf_chacha20_ctr]
  rw [← hpieces, crypto_chacha20_ctr_eq s, hblocks, hcount]

end MonocypherC
