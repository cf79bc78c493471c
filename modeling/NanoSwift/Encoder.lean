import NanoSwift.Lib.Outcome
import NanoSwift.Bytes

/-!
# The base-32 encoder

Public keys and checksums are written in an alphabet of 32 characters, five bits
each. The encoder looks groups of five binary digits up in one table, the
decoder characters in its inverse; the tables hold the block code `base32`.

* Encoding `m` pads its bits on the left to the given length and fails when they
  are no groups of five (`base32NanoEncode_eq_none_iff`,
  `base32NanoEncode_eq_some_iff`).
* Decoding fails at a character outside the alphabet, and else pads the bits of
  the characters on the left to 264, for which there must be at most 52 of them:
  the padding has a negative length otherwise, a trap
  (`base32NanoDecode_map_symbol`, `base32NanoDecode_eq_none`).
* A key of 32 bytes is four zeros and its 256 bits, cut into 52 groups of five,
  the first of which is `0` or `1`; and every such list of groups is a key
  (`KeySymbols`, `exists_keySymbols_iff`). The four zeros and the four that the
  decoder puts in front are a zero byte, which callers drop: `keyHex` and
  `keyBytes`.
-/

namespace NanoSwift

/-! ## Tables -/

/-- The alphabet. -/
def possibleCharacters : Str := text "13456789abcdefghijkmnopqrstuwxyz"

/-- The five binary digits of the position `char` in the alphabet. -/
def tableBinary (char : ℕ) : Str :=
  let binaryNum := (Radix.numeral 2 char).map digit
  List.replicate (5 - binaryNum.length) (digit 0) ++ binaryNum

/-- The rows of both tables, as `populateTables` fills them in. -/
def populateTables : List (Str × Character) :=
  possibleCharacters.zipIdx.map fun (c, char) => (tableBinary char, c)

/-- The character of five binary digits. -/
def characterTable (binary : Str) : Option Character :=
  (populateTables.find? (·.1 = binary)).map (·.2)

/-- The five binary digits of a character. -/
def binaryTable (c : Character) : Option Str :=
  (populateTables.find? (·.2 = c)).map (·.1)

/-- The text of `message` in base 32, its bits filled up on the left to
    `binaryLength`, unless a group of five bits is short. -/
def base32NanoEncode (message : Bytes) (binaryLength : ℕ) : Option Str :=
  (slices 5 (binaryString message binaryLength)).mapM characterTable

/-- The bits of `message`, filled up on the left to 264, unless it has a
    character outside the alphabet. -/
def base32NanoDecode (message : Str) : Outcome Never (Option Str) :=
  match message.mapM binaryTable with
  | none => .returns none
  | some groups =>
    let resultUnformatted := groups.flatten
    if resultUnformatted.length ≤ 264 then
      .returns (some
        (List.replicate (264 - resultUnformatted.length) (digit 0) ++ resultUnformatted))
    else .traps .negativeCount

/-! ## The code of the tables -/

/-- The character at the position `i` of the alphabet. -/
def symbol (i : Fin 32) : Character := possibleCharacters.get (i.cast (by decide))

/-- A string in the alphabet. -/
def InAlphabet (s : Str) : Prop := ∀ c ∈ s, c ∈ possibleCharacters

instance (s : Str) : Decidable (InAlphabet s) :=
  inferInstanceAs (Decidable (∀ c ∈ s, c ∈ possibleCharacters))

theorem symbol_mem (i : Fin 32) : symbol i ∈ possibleCharacters := List.get_mem _ _

theorem exists_symbol {c : Character} (hc : c ∈ possibleCharacters) : ∃ i, symbol i = c := by
  obtain ⟨i, rfl⟩ := List.mem_iff_get.1 hc
  exact ⟨i.cast (by decide), rfl⟩

theorem characterTable_tableBinary :
    ∀ i : Fin 32, characterTable (tableBinary i) = some (symbol i) := by decide

theorem binaryTable_symbol :
    ∀ i : Fin 32, binaryTable (symbol i) = some (tableBinary i) := by decide

theorem symbol_injective : Function.Injective symbol := fun i j h => by
  have hinj : ∀ i j : Fin 32, symbol i = symbol j → i = j := by decide
  exact hinj i j h

/-- The first two characters of the alphabet, those of a single bit. -/
theorem symbol_eq_one_or_three :
    ∀ i : Fin 32, (symbol i = .scalar '1' ∨ symbol i = .scalar '3') ↔ (i = 0 ∨ i = 1) := by
  decide

theorem inAlphabet_map_symbol (is : List (Fin 32)) : InAlphabet (is.map symbol) := by
  intro c hc
  obtain ⟨i, _, rfl⟩ := List.mem_map.1 hc
  exact symbol_mem i

theorem exists_map_symbol {s : Str} (hs : InAlphabet s) :
    ∃ is : List (Fin 32), is.map symbol = s := by
  induction s with
  | nil => exact ⟨[], rfl⟩
  | cons c s ih =>
    obtain ⟨i, hi⟩ := exists_symbol (hs c List.mem_cons_self)
    obtain ⟨is, his⟩ := ih fun c' hc' => hs c' (List.mem_cons_of_mem _ hc')
    exact ⟨i :: is, by rw [List.map_cons, hi, his]⟩

/-- A string of the alphabet that starts with a single bit, in terms of its positions. -/
theorem exists_cons_map_symbol_iff {s : Str} {n : ℕ} :
    (∃ (i : Fin 32) (is : List (Fin 32)),
      s = (i :: is).map symbol ∧ (i = 0 ∨ i = 1) ∧ is.length = n) ↔
    s.length = n + 1 ∧ InAlphabet s ∧
      (s.head? = some (.scalar '1') ∨ s.head? = some (.scalar '3')) := by
  constructor
  · rintro ⟨i, is, rfl, hi, hlen⟩
    refine ⟨by simp [hlen], inAlphabet_map_symbol _, ?_⟩
    simpa using (symbol_eq_one_or_three i).2 hi
  · rintro ⟨hlen, hin, hhead⟩
    obtain ⟨is, rfl⟩ := exists_map_symbol hin
    rw [List.length_map] at hlen
    obtain ⟨i, is, rfl⟩ := List.exists_cons_of_length_eq_add_one hlen
    refine ⟨i, is, rfl, (symbol_eq_one_or_three i).1 ?_, by simpa using hlen⟩
    simpa using hhead

/-- Only the rows of the tables are found in them. -/
theorem characterTable_eq_some {binary : Str} {c : Character} (h : characterTable binary = some c) :
    ∃ i : Fin 32, tableBinary i = binary ∧ symbol i = c := by
  have hrows : ∀ row ∈ populateTables, ∃ i : Fin 32, tableBinary i = row.1 ∧ symbol i = row.2 := by
    decide
  obtain ⟨row, hrow, rfl⟩ := Option.map_eq_some_iff.1 h
  obtain ⟨i, hi, hc⟩ := hrows row (List.mem_of_find?_eq_some hrow)
  exact ⟨i, hi.trans (by simpa using List.find?_some hrow), hc⟩

theorem binaryTable_eq_none {c : Character} (hc : c ∉ possibleCharacters) :
    binaryTable c = none := by
  have hrows : ∀ row ∈ populateTables, row.2 ∈ possibleCharacters := by decide
  rw [binaryTable, Option.map_eq_none_iff, List.find?_eq_none]
  intro row hrow heq
  exact hc (by simpa using (of_decide_eq_true heq) ▸ hrows row hrow)

/-- Positions in the alphabet as five binary digits. -/
def base32 : BlockCode (Fin 32) Character where
  width := 5
  encode i := tableBinary i
  decode binary := (List.finRange 32).find? (tableBinary · = binary)
  width_pos := by decide
  length_encode := by decide
  decode_encode := by decide

theorem base32_width : base32.width = 5 := rfl

theorem base32_exact : base32.Exact := fun s i h => by
  simpa [base32] using List.find?_some h

theorem base32_write_bits (is : List (Fin 32)) :
    ∀ c ∈ base32.write is, c = digit 0 ∨ c = digit 1 := by
  have hrows : ∀ i : Fin 32, ∀ c ∈ tableBinary i, c = digit 0 ∨ c = digit 1 := by decide
  intro c hc
  obtain ⟨i, _, hc⟩ := List.mem_flatMap.1 hc
  exact hrows i c hc

theorem characterTable_eq (binary : Str) :
    characterTable binary = (base32.decode binary).map symbol := by
  cases h : base32.decode binary with
  | some i =>
    have : tableBinary i = binary := base32_exact binary i h
    rw [← this, characterTable_tableBinary, Option.map_some]
  | none =>
    rw [Option.map_none]
    cases hc : characterTable binary with
    | none => rfl
    | some c =>
      -- What is in the table decodes.
      obtain ⟨i, rfl, _⟩ := characterTable_eq_some hc
      have hsome : base32.decode (tableBinary i) = some i := base32.decode_encode i
      rw [h] at hsome
      cases hsome

/-- The encoder reads the bits as positions in the alphabet. -/
theorem base32NanoEncode_eq (message : Bytes) (binaryLength : ℕ) :
    base32NanoEncode message binaryLength =
      (base32.readAll (binaryString message binaryLength)).map (List.map symbol) := by
  have hmap : ∀ ss : List Str,
      ss.mapM characterTable = (ss.mapM base32.decode).map (List.map symbol) := by
    intro ss
    induction ss with
    | nil => rfl
    | cons s ss ih =>
      rw [List.mapM_cons, List.mapM_cons, ih, characterTable_eq]
      cases base32.decode s with
      | none => rfl
      | some i => cases ss.mapM base32.decode <;> rfl
  exact hmap _

/-- The decoder writes the bits of the positions in the alphabet. -/
theorem base32NanoDecode_map_symbol (is : List (Fin 32)) :
    base32NanoDecode (is.map symbol) =
      if is.length ≤ 52 then
        .returns (some (List.replicate (264 - 5 * is.length) (digit 0) ++ base32.write is))
      else .traps .negativeCount := by
  have hmap : (is.map symbol).mapM binaryTable = some (is.map base32.encode) := by
    induction is with
    | nil => rfl
    | cons i is ih =>
      rw [List.map_cons, List.mapM_cons, ih, binaryTable_symbol]
      rfl
  have hflat : (is.map base32.encode).flatten = base32.write is := List.flatMap_def.symm
  have hlen : (base32.write is).length = 5 * is.length := base32.length_write is
  have hiff : 5 * is.length ≤ 264 ↔ is.length ≤ 52 := by omega
  simp only [base32NanoDecode, hmap, hflat, hlen, hiff]

theorem base32NanoDecode_eq_none {s : Str} (hs : ¬InAlphabet s) :
    base32NanoDecode s = .returns none := by
  have hmap : s.mapM binaryTable = none := by
    induction s with
    | nil => exact absurd (fun c hc => absurd hc List.not_mem_nil) hs
    | cons c s ih =>
      rw [List.mapM_cons]
      by_cases hc : c ∈ possibleCharacters
      · have hs' : ¬InAlphabet s := fun h => hs (List.forall_mem_cons.2 ⟨hc, h⟩)
        rw [ih hs']
        cases binaryTable c <;> rfl
      · rw [binaryTable_eq_none hc]
        rfl
  rw [base32NanoDecode, hmap]

/-- How decoding ends: without a value outside the alphabet, in a trap beyond
    52 characters, and with 264 binary digits otherwise. -/
theorem base32NanoDecode_cases (s : Str) :
    (¬InAlphabet s ∧ base32NanoDecode s = .returns none) ∨
    (InAlphabet s ∧ 52 < s.length ∧ base32NanoDecode s = .traps .negativeCount) ∨
    (InAlphabet s ∧ s.length ≤ 52 ∧ ∃ bytes : Bytes, bytes.length = 33 ∧
      base32NanoDecode s = .returns (some (byteBinary.write bytes))) := by
  by_cases hs : InAlphabet s
  · obtain ⟨is, rfl⟩ := exists_map_symbol hs
    by_cases hlen : is.length ≤ 52
    · refine .inr (.inr ⟨hs, by rwa [List.length_map], ?_⟩)
      -- The bits are 33 bytes, whatever the characters.
      have hcount : (List.replicate (264 - 5 * is.length) (digit 0) ++
          base32.write is).length = 264 := by
        rw [List.length_append, List.length_replicate, base32.length_write, base32_width]
        omega
      have hbits : ∀ c ∈ List.replicate (264 - 5 * is.length) (digit 0) ++ base32.write is,
          c = digit 0 ∨ c = digit 1 := fun c hc => (List.mem_append.1 hc).elim
        (fun hc => .inl (List.eq_of_mem_replicate hc)) (base32_write_bits is c)
      obtain ⟨bytes, hbytes⟩ := exists_binary hbits (by rw [hcount]; decide)
      refine ⟨bytes, ?_, by rw [base32NanoDecode_map_symbol, if_pos hlen, hbytes]⟩
      have : 8 * bytes.length = 264 := by
        rw [← hcount, ← hbytes, byteBinary.length_write, byteBinary_width]
      omega
    · refine .inr (.inl ⟨hs, by rwa [List.length_map, ← not_le], ?_⟩)
      rw [base32NanoDecode_map_symbol, if_neg hlen]
  · exact .inl ⟨hs, base32NanoDecode_eq_none hs⟩

/-! ## Keys -/

/-- The hexadecimal digits the callers of the decoder take from its bits: those
    of the bytes but the first. -/
def keyHex (binary : Str) : Str := (hexString (binaryToBytes binary)).drop 2

/-- The bytes the callers of the decoder take from its bits. -/
def keyBytes (binary : Str) : Bytes := hexToBytes (keyHex binary)

theorem keyHex_write (byte : UInt8) (bytes : Bytes) :
    keyHex (byteBinary.write (byte :: bytes)) = hexString bytes := by
  rw [keyHex, binaryToBytes_eq, BlockCode.read_write]
  rfl

theorem keyBytes_write (byte : UInt8) (bytes : Bytes) :
    keyBytes (byteBinary.write (byte :: bytes)) = bytes := by
  rw [keyBytes, keyHex_write, hexToBytes_hexString]

/-- Where decoding succeeds, callers take the digits of 32 bytes from it: of the 33,
    they drop the first whatever it is. -/
theorem exists_keyHex {s bits : Str} (h : base32NanoDecode s = .returns (some bits)) :
    (InAlphabet s ∧ s.length ≤ 52) ∧ ∃ k : Bytes, k.length = 32 ∧ keyHex bits = hexString k := by
  rcases base32NanoDecode_cases s with ⟨_, hdec⟩ | ⟨_, _, hdec⟩ | ⟨hin, hle, bytes, hb, hdec⟩
  · rw [hdec] at h
    cases h
  · rw [hdec] at h
    cases h
  · rw [hdec, Outcome.returns.injEq, Option.some.injEq] at h
    obtain ⟨byte, k, rfl⟩ := List.exists_cons_of_length_eq_add_one hb
    exact ⟨⟨hin, hle⟩, k, by simpa using hb, by rw [← h, keyHex_write]⟩

theorem exists_decode {s : Str} (hin : InAlphabet s) (hle : s.length ≤ 52) :
    ∃ bits, base32NanoDecode s = .returns (some bits) := by
  rcases base32NanoDecode_cases s with ⟨hno, _⟩ | ⟨_, hlong, _⟩ | ⟨_, _, _, _, hdec⟩
  · exact absurd hin hno
  · exact absurd hle (not_le.2 hlong)
  · exact ⟨_, hdec⟩

/-- The groups that begin with four zeros are those of a single bit. -/
theorem take_tableBinary_eq_zeros :
    ∀ i : Fin 32, (tableBinary i).take 4 = List.replicate 4 (digit 0) ↔ (i = 0 ∨ i = 1) := by
  decide

/-- `is` are the positions of the characters that encode the key `k`. -/
structure KeySymbols (is : List (Fin 32)) (k : Bytes) : Prop where
  length_key : k.length = 32
  write_eq : base32.write is = List.replicate 4 (digit 0) ++ byteBinary.write k

namespace KeySymbols

variable {is : List (Fin 32)} {k : Bytes}

theorem length (h : KeySymbols is k) : is.length = 52 := by
  have := congrArg List.length h.write_eq
  rw [base32.length_write, List.length_append, byteBinary.length_write, List.length_replicate,
    h.length_key, byteBinary_width, base32_width] at this
  omega

/-- The first group of a key is a single bit. -/
theorem head (h : KeySymbols is k) : ∃ i is', is = i :: is' ∧ (i = 0 ∨ i = 1) := by
  obtain ⟨i, is', rfl⟩ := List.exists_cons_of_length_eq_add_one h.length
  refine ⟨i, is', rfl, (take_tableBinary_eq_zeros i).1 ?_⟩
  have htake := congrArg (List.take 4) h.write_eq
  rwa [BlockCode.write_cons, List.take_left' (List.length_replicate ..),
    List.take_append_of_le_length (by rw [base32.length_encode]; decide)] at htake

theorem key_unique {k' : Bytes} (h : KeySymbols is k) (h' : KeySymbols is k') : k = k' :=
  byteBinary.write_injective (List.append_cancel_left (h.write_eq.symm.trans h'.write_eq))

/-- The encoder writes a key in its symbols. -/
theorem encode (h : KeySymbols is k) : base32NanoEncode k 260 = some (is.map symbol) := by
  have hbits : binaryString k 260 = base32.write is := by
    rw [binaryString_eq, h.length_key, h.write_eq]
  rw [base32NanoEncode_eq, hbits, BlockCode.readAll_write, Option.map_some]

/-- The decoder returns the bits of a zero byte and the key. -/
theorem decode (h : KeySymbols is k) :
    base32NanoDecode (is.map symbol) = .returns (some (byteBinary.write (0 :: k))) := by
  have hzero : List.replicate 4 (digit 0) ++ List.replicate 4 (digit 0) = byteBinary.encode 0 := by
    decide
  rw [base32NanoDecode_map_symbol, if_pos h.length.le, h.length, h.write_eq, ← List.append_assoc,
    BlockCode.write_cons, ← hzero]

end KeySymbols

/-- Groups of five binary digits are the symbols of some positions. -/
theorem exists_symbols {bits : Str} (hbits : ∀ c ∈ bits, c = digit 0 ∨ c = digit 1)
    (hlen : 5 ∣ bits.length) : ∃ is, base32.write is = bits := by
  -- Any five binary digits are a row of the tables.
  have hrows : ∀ a b c d e : Bool, ∃ i : Fin 32, tableBinary i =
      [digit a.toNat, digit b.toNat, digit c.toNat, digit d.toNat, digit e.toNat] := by decide
  have hbit : ∀ c ∈ bits, ∃ b : Bool, c = digit b.toNat := fun c hc =>
    (hbits c hc).elim (fun h => ⟨false, h⟩) fun h => ⟨true, h⟩
  refine base32.exists_write fun block hblock => ?_
  have hwidth : block.length = 5 := length_of_mem_slices (by decide) hlen block hblock
  have hmem : ∀ c ∈ block, ∃ b : Bool, c = digit b.toNat := fun c hc =>
    hbit c (mem_of_mem_slices hblock hc)
  match block, hwidth with
  | [c₁, c₂, c₃, c₄, c₅], _ =>
    obtain ⟨b₁, rfl⟩ := hmem c₁ (by simp)
    obtain ⟨b₂, rfl⟩ := hmem c₂ (by simp)
    obtain ⟨b₃, rfl⟩ := hmem c₃ (by simp)
    obtain ⟨b₄, rfl⟩ := hmem c₄ (by simp)
    obtain ⟨b₅, rfl⟩ := hmem c₅ (by simp)
    exact hrows b₁ b₂ b₃ b₄ b₅

/-- The binary digits of positions are printed from their bits, five a position. -/
theorem base32_write_eq (is : List (Fin 32)) :
    base32.write is = (is.flatMap fun i : Fin 32 => Radix.fixed 2 5 i).map digit := by
  have hrows : ∀ i : Fin 32, base32.encode i = (Radix.fixed 2 5 i).map digit := by decide
  rw [List.map_flatMap, BlockCode.write, funext hrows]

/-- The bits of a message, filled up with zeros on the left, are binary digits. -/
theorem binaryString_bits (message : Bytes) (binaryLength : ℕ) :
    ∀ c ∈ binaryString message binaryLength, c = digit 0 ∨ c = digit 1 := by
  intro c hc
  rw [binaryString_eq] at hc
  exact (List.mem_append.1 hc).elim (fun hc => .inl (List.eq_of_mem_replicate hc))
    (byteBinary_write_bits message c)

/-- Groups of five bits are encoded, each in one symbol. -/
theorem exists_base32NanoEncode {message : Bytes} {binaryLength n : ℕ}
    (h : max (8 * message.length) binaryLength = 5 * n) :
    ∃ is : List (Fin 32), is.length = n ∧
      base32NanoEncode message binaryLength = some (is.map symbol) := by
  have hlen : (binaryString message binaryLength).length = 5 * n := by rw [length_binaryString, h]
  obtain ⟨is, his⟩ := exists_symbols (binaryString_bits message binaryLength)
    (hlen ▸ dvd_mul_right 5 n)
  refine ⟨is, ?_, ?_⟩
  · rw [← his, base32.length_write, base32_width] at hlen
    omega
  · rw [base32NanoEncode_eq, ← his, BlockCode.readAll_write, Option.map_some]

/-- Encoding fails exactly where the bits are no groups of five. -/
theorem base32NanoEncode_eq_none_iff (message : Bytes) (binaryLength : ℕ) :
    base32NanoEncode message binaryLength = none ↔ ¬5 ∣ max (8 * message.length) binaryLength := by
  refine ⟨?_, fun hno => ?_⟩
  · rintro hnone ⟨n, hn⟩
    obtain ⟨is, _, hsome⟩ := exists_base32NanoEncode hn
    rw [hnone] at hsome
    cases hsome
  · rw [base32NanoEncode_eq, Option.map_eq_none_iff, Option.eq_none_iff_forall_ne_some]
    intro is his
    -- What can be read is written from positions, five digits each.
    rw [BlockCode.readAll_eq_some _ base32_exact] at his
    refine hno ⟨is.length, ?_⟩
    rw [← length_binaryString, ← his, base32.length_write, base32_width]

/-- The characters of what is encoded, read as groups of five bits, are the bits of
    the message after zeros. -/
theorem base32NanoEncode_eq_some_iff {message : Bytes} {binaryLength : ℕ} {s : Str} :
    base32NanoEncode message binaryLength = some s ↔ ∃ is : List (Fin 32), s = is.map symbol ∧
      (is.flatMap fun i : Fin 32 => Radix.fixed 2 5 i) =
        List.replicate (binaryLength - 8 * message.length) 0 ++
          message.flatMap fun byte : UInt8 => Radix.fixed 2 8 byte.toNat := by
  have hdigits : binaryString message binaryLength =
      (List.replicate (binaryLength - 8 * message.length) 0 ++
        message.flatMap fun byte : UInt8 => Radix.fixed 2 8 byte.toNat).map digit := by
    rw [binaryString_eq, byteBinary_write_eq, List.map_append, List.map_replicate]
  have hlt : ∀ {w n d : ℕ}, d ∈ Radix.fixed 2 w n → d < 16 := fun hd =>
    (Radix.lt_of_mem_fixed (by decide) hd).trans (by decide)
  rw [base32NanoEncode_eq, hdigits]
  simp only [Option.map_eq_some_iff, BlockCode.readAll_eq_some _ base32_exact, base32_write_eq]
  refine exists_congr fun is => ?_
  rw [map_digit_inj, and_comm, eq_comm (a := s)]
  · intro d hd
    obtain ⟨i, _, hd⟩ := List.mem_flatMap.1 hd
    exact hlt hd
  · intro d hd
    rcases List.mem_append.1 hd with hd | hd
    · rw [List.eq_of_mem_replicate hd]
      decide
    · obtain ⟨byte, _, hd⟩ := List.mem_flatMap.1 hd
      exact hlt hd

/-- Every key has its symbols. -/
theorem exists_keySymbols {k : Bytes} (hk : k.length = 32) : ∃ is, KeySymbols is k := by
  have hbits : binaryString k 260 = List.replicate 4 (digit 0) ++ byteBinary.write k := by
    rw [binaryString_eq, hk]
  have hlen : (binaryString k 260).length = 260 := by
    rw [length_binaryString, hk]
    rfl
  obtain ⟨is, his⟩ := exists_symbols (binaryString_bits k 260) (by rw [hlen]; decide)
  exact ⟨is, hk, his.trans hbits⟩

/-- Every 52 symbols whose first is a single bit are those of a key. -/
theorem exists_key {i : Fin 32} {is : List (Fin 32)} (hlen : is.length = 51) (hi : i = 0 ∨ i = 1) :
    ∃ k, KeySymbols (i :: is) k := by
  rcases base32NanoDecode_cases ((i :: is).map symbol) with
    ⟨hno, _⟩ | ⟨_, hlong, _⟩ | ⟨_, _, bytes, hb, hdec⟩
  · exact absurd (inAlphabet_map_symbol _) hno
  · rw [List.length_map, List.length_cons] at hlong
    omega
  -- The first byte of the decoded bits is zero, and the rest is the key.
  rw [base32NanoDecode_map_symbol, if_pos (by simp [hlen])] at hdec
  have hbits : List.replicate 4 (digit 0) ++ (tableBinary i ++ base32.write is) =
      byteBinary.write bytes := by
    have := Option.some.inj (Outcome.returns.inj hdec)
    rwa [BlockCode.write_cons, List.length_cons, hlen] at this
  have hhead : tableBinary i = List.replicate 4 (digit 0) ++ (tableBinary i).drop 4 := by
    rw [← (take_tableBinary_eq_zeros i).2 hi, List.take_append_drop]
  obtain ⟨byte, k, rfl⟩ := List.exists_cons_of_length_eq_add_one hb
  refine ⟨k, by simpa using hb, ?_⟩
  rw [hhead, BlockCode.write_cons, List.append_assoc, ← List.append_assoc] at hbits
  obtain ⟨_, hrest⟩ := List.append_inj hbits (by rw [byteBinary.length_encode]; rfl)
  rw [BlockCode.write_cons, show base32.encode i = tableBinary i from rfl, hhead,
    List.append_assoc, hrest]

/-- The strings that encode keys are those of 52 characters of the alphabet, the
    first of which is a single bit. -/
theorem exists_keySymbols_iff {s : Str} :
    (∃ is k, s = is.map symbol ∧ KeySymbols is k) ↔
      s.length = 52 ∧ InAlphabet s ∧
        (s.head? = some (.scalar '1') ∨ s.head? = some (.scalar '3')) := by
  rw [← exists_cons_map_symbol_iff]
  constructor
  · rintro ⟨is, k, rfl, hk⟩
    obtain ⟨i, is', rfl, hi⟩ := hk.head
    exact ⟨i, is', rfl, hi, by simpa using hk.length⟩
  · rintro ⟨i, is, rfl, hi, hlen⟩
    obtain ⟨k, hk⟩ := exists_key hlen hi
    exact ⟨_, k, rfl, hk⟩

end NanoSwift
