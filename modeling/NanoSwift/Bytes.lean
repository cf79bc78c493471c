import NanoSwift.Lib.BlockCode
import NanoSwift.Text

/-!
# Bytes and their texts

The extensions of byte arrays and strings that convert one to the other:
`binaryString` and `binaryToBytes`, `hexString` and `hexToBytes`, `padToLength`
(the source's `length`), and the big-endian bytes of an index.

Both textual forms are block codes, of eight binary or two hexadecimal digits a
byte (`byteCode`), and the four functions write and read them
(`binaryString_eq`, `hexString_eq`; the decoders by definition). The decoders
accept more than the encoders produce: `hexToBytes` reads either case
(`hexString_hexToBytes`), and stops at the first slice that does not parse. On
what is well formed, encoders and decoders are inverse (`codecs_inverse`).
-/

namespace NanoSwift

/-- A byte array. -/
abbrev Bytes := List UInt8

/-! ## The functions of the library -/

/-- The bytes as binary digits, eight a byte, filled up with zeros on the left
    to at least `length` characters. -/
def binaryString (bytes : Bytes) (length : ℕ) : Str :=
  let unformatted := bytes.flatMap fun byte =>
    let binary := (Radix.numeral 2 byte.toNat).map digit
    List.replicate (8 - binary.length) (digit 0) ++ binary
  List.replicate (length - unformatted.length) (digit 0) ++ unformatted

/-- The bytes as hexadecimal digits, two a byte (`%02X`). -/
def hexString (bytes : Bytes) : Str :=
  bytes.flatMap fun byte => [digit (byte.toNat / 16), digit (byte.toNat % 16)]

/-- The bytes of a string of binary digits, up to the first eight characters
    that are no byte. -/
def binaryToBytes (s : Str) : Bytes := takeSome ((slices 8 s).map (parseByte 2))

/-- The bytes of a string of hexadecimal digits, up to the first two characters
    that are no byte. -/
def hexToBytes (s : Str) : Bytes := takeSome ((slices 2 s).map (parseByte 16))

/-- The bytes with zeros in front, up to the length `length`; longer arrays are
    left as they are. -/
def padToLength (length : ℕ) (bytes : Bytes) : Bytes :=
  if bytes.length < length then (fun result => 0 :: result)^[length - bytes.length] bytes else bytes

/-- The last `w` bytes of a number, the most significant first. -/
def bigEndian (w n : ℕ) : Bytes := (Radix.fixed 256 w n).map UInt8.ofNat

/-- The four bytes of an index, the most significant first. -/
def indexBytes (i : UInt32) : Bytes := bigEndian 4 i.toNat

/-! ## Codes of bytes -/

/-- Bytes written as `w` digits in the radix `r`, `r ^ w` being the number of bytes. -/
def byteCode (r w : ℕ) (hr : r ≤ 16) (hw : 0 < w) (hrw : r ^ w = 256) :
    BlockCode UInt8 Character where
  width := w
  encode byte := (Radix.fixed r w byte.toNat).map digit
  decode := parseByte r
  width_pos := hw
  length_encode := by simp
  decode_encode byte := by
    have hpos : 0 < r := Nat.pos_of_ne_zero fun h => by simp [h, Nat.zero_pow hw] at hrw
    have hlt : ∀ d ∈ Radix.fixed r w byte.toNat, d < r := fun d => Radix.lt_of_mem_fixed hpos
    have hv : Radix.value r (Radix.fixed r w byte.toNat) = byte.toNat :=
      Radix.value_fixed (hrw ▸ byte.toNat_lt)
    have hne : (Radix.fixed r w byte.toNat).map digit ≠ [] :=
      List.ne_nil_of_length_pos (by simpa using hw)
    -- There are no more numerals of `w` digits than bytes.
    have hlt256 : Radix.value r (Radix.fixed r w byte.toNat) < 256 := by
      rw [hv]
      exact byte.toNat_lt
    rw [parseByte_of_mapM hne (mapM_digit_map_digit hr hlt) hlt256, hv, UInt8.ofNat_toNat]

/-- Bytes as eight binary digits. -/
def byteBinary : BlockCode UInt8 Character :=
  byteCode 2 8 (by decide) (by decide) (by decide)

/-- Bytes as two hexadecimal digits. -/
def byteHex : BlockCode UInt8 Character :=
  byteCode 16 2 (by decide) (by decide) (by decide)

theorem byteBinary_width : byteBinary.width = 8 := rfl

theorem byteHex_width : byteHex.width = 2 := rfl

theorem byteBinary_encode (byte : UInt8) :
    byteBinary.encode byte = (Radix.fixed 2 8 byte.toNat).map digit := rfl

theorem byteHex_encode (byte : UInt8) :
    byteHex.encode byte = [digit (byte.toNat / 16), digit (byte.toNat % 16)] := by
  have : byte.toNat / 16 % 16 = byte.toNat / 16 := by have := byte.toNat_lt; omega
  change (Radix.fixed 16 2 byte.toNat).map digit = _
  simp [Radix.fixed, this]

theorem binaryToBytes_eq (s : Str) : binaryToBytes s = byteBinary.read s := rfl

theorem hexToBytes_eq (s : Str) : hexToBytes s = byteHex.read s := rfl

theorem hexString_eq (bytes : Bytes) : hexString bytes = byteHex.write bytes := by
  rw [hexString, BlockCode.write, funext byteHex_encode]

theorem binaryString_eq (bytes : Bytes) (length : ℕ) :
    binaryString bytes length =
      List.replicate (length - 8 * bytes.length) (digit 0) ++ byteBinary.write bytes := by
  -- Every byte is filled up to the block that encodes it.
  have hbyte : (fun byte : UInt8 => List.replicate
      (8 - ((Radix.numeral 2 byte.toNat).map digit).length) (digit 0) ++
        (Radix.numeral 2 byte.toNat).map digit) = byteBinary.encode := by
    funext byte
    rw [byteBinary_encode, ← Radix.replicate_append_numeral (by decide) (by decide) byte.toNat_lt,
      List.map_append, List.map_replicate, List.length_map]
  simp only [binaryString, hbyte]
  rw [← BlockCode.write, BlockCode.length_write, byteBinary_width]

/-- Bits are filled up to the given length, and never cut off. -/
theorem length_binaryString (bytes : Bytes) (length : ℕ) :
    (binaryString bytes length).length = max (8 * bytes.length) length := by
  rw [binaryString_eq, List.length_append, List.length_replicate, byteBinary.length_write,
    byteBinary_width]
  omega

@[simp] theorem length_hexString (bytes : Bytes) : (hexString bytes).length = 2 * bytes.length := by
  rw [hexString_eq, BlockCode.length_write, byteHex_width]

theorem hexString_injective : Function.Injective hexString := by
  simpa only [funext hexString_eq] using byteHex.write_injective

@[simp] theorem hexToBytes_hexString (bytes : Bytes) : hexToBytes (hexString bytes) = bytes := by
  rw [hexString_eq, hexToBytes_eq, BlockCode.read_write]

/-- Bytes are printed as hexadecimal digits. -/
theorem exists_hexString_eq (bytes : Bytes) :
    ∃ ds : List ℕ, (∀ d ∈ ds, d < 16) ∧ hexString bytes = ds.map digit := by
  refine ⟨bytes.flatMap fun byte => [byte.toNat / 16, byte.toNat % 16], ?_, ?_⟩
  · intro d hd
    obtain ⟨byte, _, hd⟩ := List.mem_flatMap.1 hd
    have := byte.toNat_lt
    simp only [List.mem_cons, List.not_mem_nil, or_false] at hd
    omega
  · rw [hexString, List.map_flatMap]
    rfl

theorem isHex_hexString (bytes : Bytes) : IsHex (hexString bytes) := by
  obtain ⟨ds, hds, heq⟩ := exists_hexString_eq bytes
  rw [heq]
  exact isHex_map_digit hds

/-- The digits bytes are printed with are in upper case. -/
theorem hexString_upperCase (bytes : Bytes) :
    ∀ c ∈ hexString bytes, c ∈ text "0123456789ABCDEF" := by
  have hall : ∀ d < 16, digit d ∈ text "0123456789ABCDEF" := by decide
  obtain ⟨ds, hds, heq⟩ := exists_hexString_eq bytes
  rw [heq]
  intro c hc
  obtain ⟨d, hd, rfl⟩ := List.mem_map.1 hc
  exact hall d (hds d hd)

/-! ## Strings of binary digits -/

theorem byteBinary_write_bits (bytes : Bytes) :
    ∀ c ∈ byteBinary.write bytes, c = digit 0 ∨ c = digit 1 := by
  intro c hc
  obtain ⟨byte, _, hc⟩ := List.mem_flatMap.1 hc
  rw [byteBinary_encode] at hc
  obtain ⟨d, hd, rfl⟩ := List.mem_map.1 hc
  have hd := Radix.lt_of_mem_fixed (by decide) hd
  rcases (by omega : d = 0 ∨ d = 1) with rfl | rfl
  · exact .inl rfl
  · exact .inr rfl

/-- The binary digits of bytes are printed from their bits, eight a byte. -/
theorem byteBinary_write_eq (bytes : Bytes) :
    byteBinary.write bytes =
      (bytes.flatMap fun byte : UInt8 => Radix.fixed 2 8 byte.toNat).map digit := by
  rw [List.map_flatMap, BlockCode.write, funext byteBinary_encode]

/-- Whole bytes of binary digits are the binary form of some bytes. -/
theorem exists_binary {s : Str} (hs : ∀ c ∈ s, c = digit 0 ∨ c = digit 1) (hlen : 8 ∣ s.length) :
    ∃ bytes, byteBinary.write bytes = s := by
  refine byteBinary.exists_write fun block hblock => ?_
  have hwidth : block.length = 8 := length_of_mem_slices (by decide) hlen block hblock
  -- The digits of the slice are those of the byte they denote.
  have hdigits : ∃ ds : List ℕ, (∀ d ∈ ds, d < 2) ∧ ds.map digit = block := by
    refine ⟨block.map fun c => if c = digit 0 then 0 else 1, ?_, ?_⟩
    · intro d hd
      obtain ⟨c, _, rfl⟩ := List.mem_map.1 hd
      split <;> decide
    · rw [List.map_map]
      refine (List.map_congr_left fun c hc => ?_).trans (List.map_id block)
      rcases hs c (mem_of_mem_slices hblock hc) with rfl | rfl <;> decide
  obtain ⟨ds, hlt, rfl⟩ := hdigits
  rw [List.length_map] at hwidth
  refine ⟨UInt8.ofNat (Radix.value 2 ds), ?_⟩
  have hv : Radix.value 2 ds < 256 := by
    simpa [hwidth] using Radix.value_lt (by decide) hlt
  have := Radix.fixed_value (by decide) hlt
  rw [hwidth] at this
  have hval : (UInt8.ofNat (Radix.value 2 ds)).toNat = Radix.value 2 ds :=
    UInt8.toNat_ofNat_of_lt' hv
  rw [byteBinary_encode, hval, this]

/-! ## Strings of hexadecimal digits -/

/-- Two hexadecimal digits are read as one byte. -/
theorem hexToBytes_cons_cons {c₁ c₂ : Character} {d₁ d₂ : ℕ} (h₁ : c₁.digit 16 = some d₁)
    (h₂ : c₂.digit 16 = some d₂) (s : Str) :
    hexToBytes (c₁ :: c₂ :: s) = UInt8.ofNat (d₁ * 16 + d₂) :: hexToBytes s := by
  have hd₁ := (Character.digit_eq_some h₁).1
  have hd₂ := (Character.digit_eq_some h₂).1
  have hv : Radix.value 16 [d₁, d₂] = d₁ * 16 + d₂ := by simp [Radix.value_cons]
  have hp : parseByte 16 [c₁, c₂] = some (UInt8.ofNat (d₁ * 16 + d₂)) := by
    rw [← hv]
    exact parseByte_of_mapM (by simp) (by simp [List.mapM_cons, h₁, h₂]) (by omega)
  rw [hexToBytes, slices_cons (by decide) (by simp)]
  simp [hp, takeSome, hexToBytes]

/-- Pairs of hexadecimal digits of either case are read as bytes, and printing
    these gives the upper case of the digits. -/
theorem hexString_hexToBytes {s : Str} (hs : IsHex s) {n : ℕ} (hlen : s.length = 2 * n) :
    (hexToBytes s).length = n ∧ hexString (hexToBytes s) = upperCase s := by
  induction n generalizing s with
  | zero =>
    obtain rfl := List.length_eq_zero_iff.1 hlen
    exact ⟨rfl, rfl⟩
  | succ n ih =>
    obtain ⟨c₁, c₂, s, rfl⟩ : ∃ c₁ c₂ s', s = c₁ :: c₂ :: s' := by
      match s, hlen with
      | c₁ :: c₂ :: s', _ => exact ⟨c₁, c₂, s', rfl⟩
    obtain ⟨d₁, h₁⟩ := Option.isSome_iff_exists.1 (hs c₁ (by simp))
    obtain ⟨d₂, h₂⟩ := Option.isSome_iff_exists.1 (hs c₂ (by simp))
    have hd₁ := (Character.digit_eq_some h₁).1
    have hd₂ := (Character.digit_eq_some h₂).1
    obtain ⟨hl, hu⟩ := ih (s := s) (fun c hc => hs c (by simp [hc]))
      (by simp only [List.length_cons] at hlen; omega)
    have hval : (UInt8.ofNat (d₁ * 16 + d₂)).toNat = d₁ * 16 + d₂ :=
      UInt8.toNat_ofNat_of_lt' (by simp only [UInt8.size]; omega)
    have hdiv : (d₁ * 16 + d₂) / 16 = d₁ := by omega
    have hmod : (d₁ * 16 + d₂) % 16 = d₂ := by omega
    rw [hexToBytes_cons_cons h₁ h₂]
    refine ⟨by rw [List.length_cons, hl], ?_⟩
    rw [hexString, List.flatMap_cons, ← hexString, hu, hval, hdiv, hmod, upperCase, upperCase,
      List.map_cons, List.map_cons, upperCase_digit h₁, upperCase_digit h₂]
    rfl

/-! ## Padding -/

theorem padToLength_eq (length : ℕ) (bytes : Bytes) :
    padToLength length bytes = List.replicate (length - bytes.length) 0 ++ bytes := by
  have hiter : ∀ k, (fun result : Bytes => 0 :: result)^[k] bytes =
      List.replicate k 0 ++ bytes := by
    intro k
    induction k with
    | zero => rfl
    | succ k ih => rw [Function.iterate_succ_apply', ih, List.replicate_succ, List.cons_append]
  unfold padToLength
  split
  · exact hiter _
  · rw [show length - bytes.length = 0 by omega, List.replicate_zero, List.nil_append]

@[simp] theorem length_padToLength (length : ℕ) (bytes : Bytes) :
    (padToLength length bytes).length = max length bytes.length := by
  rw [padToLength_eq, List.length_append, List.length_replicate]
  omega

theorem padToLength_of_length {length : ℕ} {bytes : Bytes} (h : bytes.length = length) :
    padToLength length bytes = bytes := by
  rw [padToLength, if_neg (by omega)]

/-- Bits that are filled up to whole bytes are those of the padded bytes. -/
theorem binaryString_eq_write {bytes : Bytes} {n : ℕ} (h : bytes.length ≤ n) :
    binaryString bytes (8 * n) = byteBinary.write (padToLength n bytes) := by
  have hzeros : ∀ k, byteBinary.write (List.replicate k 0) = List.replicate (8 * k) (digit 0) := by
    intro k
    have hzero : byteBinary.encode 0 = List.replicate 8 (digit 0) := by decide
    induction k with
    | zero => rfl
    | succ k ih =>
      rw [List.replicate_succ, BlockCode.write_cons, ih, hzero, List.replicate_append_replicate,
        Nat.mul_succ, Nat.add_comm]
  have hcount : 8 * n - 8 * bytes.length = 8 * (n - bytes.length) := by omega
  rw [binaryString_eq, padToLength_eq, BlockCode.write_append, hzeros, hcount]

/-! ## The codecs -/

/-- The textual forms of bytes and their decoders are inverse to each other. -/
theorem codecs_inverse :
    (∀ bytes : Bytes, (hexString bytes).length = 2 * bytes.length ∧
      (∀ c ∈ hexString bytes, c ∈ text "0123456789ABCDEF") ∧
      hexToBytes (hexString bytes) = bytes) ∧
    (∀ s : Str, 2 ∣ s.length → IsHex s → hexString (hexToBytes s) = upperCase s) ∧
    (∀ (bytes : Bytes) (length : ℕ), 8 * bytes.length ≤ length → 8 ∣ length →
      binaryToBytes (binaryString bytes length) = padToLength (length / 8) bytes) ∧
    ∀ s : Str, (∀ c ∈ s, c = .scalar '0' ∨ c = .scalar '1') → 8 ∣ s.length →
      binaryString (binaryToBytes s) 0 = s := by
  refine ⟨fun bytes => ?_, ?_, ?_, fun s hs hlen => ?_⟩
  · exact ⟨length_hexString bytes, hexString_upperCase bytes, hexToBytes_hexString bytes⟩
  · rintro s ⟨n, hn⟩ hs
    exact (hexString_hexToBytes hs hn).2
  · rintro bytes _ hle ⟨n, rfl⟩
    rw [Nat.mul_div_cancel_left n (by decide), binaryString_eq_write (by omega), binaryToBytes_eq,
      BlockCode.read_write]
  · -- The digits are those of some bytes, which they are read as.
    obtain ⟨bytes, rfl⟩ := exists_binary hs hlen
    rw [binaryToBytes_eq, BlockCode.read_write, binaryString_eq, Nat.zero_sub, List.replicate_zero,
      List.nil_append]

/-! ## Bytes of numbers -/

/-- The shortest bytes of a number, the most significant first. -/
def shortBytes (n : ℕ) : Bytes := (Radix.numeral 256 n).map UInt8.ofNat

/-- The number some bytes denote, the most significant first. -/
def bytesValue (bytes : Bytes) : ℕ := Radix.value 256 (bytes.map UInt8.toNat)

@[simp] theorem length_bigEndian (w n : ℕ) : (bigEndian w n).length = w := by
  rw [bigEndian, List.length_map, Radix.length_fixed]

theorem map_toNat_ofNat {ds : List ℕ} (hlt : ∀ d ∈ ds, d < 256) :
    (ds.map UInt8.ofNat).map UInt8.toNat = ds := by
  rw [List.map_map]
  exact (List.map_congr_left fun d hd => UInt8.toNat_ofNat_of_lt' (hlt d hd)).trans (List.map_id ds)

@[simp] theorem bytesValue_shortBytes (n : ℕ) : bytesValue (shortBytes n) = n := by
  rw [bytesValue, shortBytes, map_toNat_ofNat fun d => Radix.lt_of_mem_numeral (by decide),
    Radix.value_numeral]

theorem shortBytes_inj {n m : ℕ} : shortBytes n = shortBytes m ↔ n = m := by
  refine ⟨fun h => ?_, fun h => h ▸ rfl⟩
  rw [← bytesValue_shortBytes n, h, bytesValue_shortBytes]

/-- Short bytes have no zero in front, but for that of the number zero. -/
theorem head?_shortBytes_ne_zero {n : ℕ} (hn : n ≠ 0) : (shortBytes n).head? ≠ some 0 := by
  have hlt : (Radix.numeral 256 n).head (Radix.numeral_ne_nil n) < 256 :=
    Radix.lt_of_mem_numeral (by decide) (List.head_mem _)
  have hne := Radix.head_numeral_ne_zero (b := 256) hn
  rw [shortBytes, List.head?_map, List.head?_eq_some_head (Radix.numeral_ne_nil n),
    Option.map_some]
  intro h
  have hbyte := congrArg UInt8.toNat (Option.some.inj h)
  rw [UInt8.toNat_ofNat_of_lt' hlt] at hbyte
  exact hne hbyte

theorem bytesValue_bigEndian {w n : ℕ} (hn : n < 256 ^ w) : bytesValue (bigEndian w n) = n := by
  rw [bytesValue, bigEndian, map_toNat_ofNat fun d => Radix.lt_of_mem_fixed (by decide),
    Radix.value_fixed hn]

/-- The bytes of an index denote it. -/
theorem bytesValue_indexBytes (i : UInt32) : bytesValue (indexBytes i) = i.toNat :=
  bytesValue_bigEndian (w := 4) i.toNat_lt

theorem indexBytes_injective : Function.Injective indexBytes := fun i j h => by
  rw [← UInt32.toNat_inj, ← bytesValue_indexBytes i, h, bytesValue_indexBytes]

/-- Padding does not change the number. -/
@[simp] theorem bytesValue_padToLength (length : ℕ) (bytes : Bytes) :
    bytesValue (padToLength length bytes) = bytesValue bytes := by
  rw [bytesValue, padToLength_eq, List.map_append, List.map_replicate]
  exact Radix.value_replicate_zero_append _ _

/-- The shortest bytes, padded. -/
theorem padToLength_shortBytes {w n : ℕ} (hw : 0 < w) (hn : n < 256 ^ w) :
    padToLength w (shortBytes n) = bigEndian w n := by
  rw [padToLength_eq, shortBytes, bigEndian, ← Radix.replicate_append_numeral (by decide) hw hn,
    List.map_append, List.map_replicate, List.length_map]
  rfl

end NanoSwift
