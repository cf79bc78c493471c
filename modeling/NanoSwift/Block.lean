import NanoSwift.Address
import NanoSwift.RawBytes

/-!
# State blocks

State blocks (`NanoStateBlock`) and how they are hashed and signed
(`NanoBlockFunctions`). A block names keys, as hexadecimal digits or as
addresses (`makeHex`), the hash of the block before it, and a balance; all are
written one after the other into the message that is hashed (`unhashed`).

* `Denotes` says which key a text names, on its own terms, and the message of a
  block whose texts name keys has a fixed layout (`unhashed_of_denotes`,
  `hashStateBlock_layout`).
* The balance is hashed whatever it is; that in the message is the balance of the
  block exactly if it is an integer of 16 bytes (`balanceHashed_iff`).
-/

namespace NanoSwift

/-! ## Blocks -/

/-- A state block. -/
structure NanoStateBlock where
  type : Str := text "state"
  previous : Str
  account : Str
  representative : Str
  balance : NanoAmount
  link : Str
  work : Option Str := none
  hash : Option Bytes := none
  signature : Option Bytes := none
  deriving DecidableEq

/-- What hashing a block results in. -/
inductive HashStateBlockResult
  | success (hash : Bytes)
  | invalidAccount
  | invalidPrevious
  | invalidRepresentative
  | invalidLink
  deriving DecidableEq

/-- The hash, if there is one. -/
def HashStateBlockResult.optional : HashStateBlockResult → Option Bytes
  | success hash => some hash
  | _ => none

theorem HashStateBlockResult.optional_eq_some {result : HashStateBlockResult} {hash : Bytes} :
    result.optional = some hash ↔ result = .success hash := by
  cases result <;> simp [optional]

/-! ## Hashing -/

/-- The string starts like an address. -/
def IsPrefixed (s : Str) : Prop := s.take 4 ∈ [text "nano", text "ban_", text "xrb_"]

instance (s : Str) : Decidable (IsPrefixed s) :=
  inferInstanceAs (Decidable (s.take 4 ∈ [text "nano", text "ban_", text "xrb_"]))

/-- The 64 characters a field of a block is hashed by: those of the key of an
    address, or the field itself. -/
def makeHex (address : Str) : Outcome Never (Option Str) := do
  if IsPrefixed address then
    -- The parts are unwrapped by force.
    match splitAddress address with
    | none => .traps .unwrappedNil
    | some (_, encodedPublicKey, _) =>
      match ← decodePublicKey encodedPublicKey with
      | none => return none
      | some decoded =>
        let decodedString := keyHex decoded
        return if decodedString.length = 64 then some decodedString else none
  else return if address.length = 64 then some address else none

/-- The message of a block that is hashed, or else the result of hashing it. -/
def unhashed (l : Locale) (block : NanoStateBlock) : Outcome HashStateBlockResult Bytes := do
  let hexAccount ← Outcome.guardLet (← Outcome.lift (makeHex block.account)) .invalidAccount
  Outcome.guardElse (block.previous.length = 64 ∨ block.previous = text "0") .invalidPrevious
  let hexRep ←
    Outcome.guardLet (← Outcome.lift (makeHex block.representative)) .invalidRepresentative
  let hexLink ← Outcome.guardLet (← Outcome.lift (makeHex block.link)) .invalidLink
  let statePreamble := padToLength 32 (hexToBytes (text "6"))
  let account := padToLength 32 (hexToBytes hexAccount)
  let previous := padToLength 32 (hexToBytes block.previous)
  let representative := padToLength 32 (hexToBytes hexRep)
  let balance := padToLength 16 (block.balance.rawBytes l)
  let link := padToLength 32 (hexToBytes hexLink)
  return statePreamble ++ account ++ previous ++ representative ++ balance ++ link

variable (mc : Monocypher) (l : Locale)

/-- The hash of a block. -/
def hashStateBlock (block : NanoStateBlock) : Outcome Never HashStateBlockResult :=
  Outcome.settle do
    let message ← unhashed l block
    return .success (mc.crypto_blake2b_general 32 message)

/-- The signature of the hash of a block. -/
def signStateBlockHash (hash privateKey : Bytes) (publicKey : Option Bytes := none) : Bytes :=
  let publicKey := publicKey.getD (derivePublicKey mc privateKey)
  mc.crypto_sign privateKey publicKey (hash.take 32)

theorem hashStateBlock_of_unhashed {block : NanoStateBlock} {message : Bytes}
    (h : unhashed l block = .returns message) :
    hashStateBlock mc l block = .returns (.success (mc.crypto_blake2b_general 32 message)) := by
  rw [hashStateBlock, h]
  rfl

/-! ## Texts of keys -/

/-- `s` are the hexadecimal digits of `bytes`, of either case. -/
def HexOf (s : Str) (bytes : Bytes) : Prop := IsHex s ∧ upperCase s = hexString bytes

instance (s : Str) (bytes : Bytes) : Decidable (HexOf s bytes) :=
  inferInstanceAs (Decidable (IsHex s ∧ upperCase s = hexString bytes))

/-- `s` is an address of the key `k`, whatever its checksum. -/
def AddressOf (s : Str) (k : Bytes) : Prop :=
  ∃ (p : NanoAccountPrefix) (key checksum : Str),
    s = p.rawValue ++ key ++ checksum ∧ checksum.length = 8 ∧ encodePublicKey k = some key

/-- `s` names the key `k`. -/
def Denotes (s : Str) (k : Bytes) : Prop := k.length = 32 ∧ (HexOf s k ∨ AddressOf s k)

/-- `s` names the block before the one with the field `s`, by its hash; there is
    none before the first. -/
def DenotesPrevious (s : Str) (hash : Bytes) : Prop :=
  hash.length = 32 ∧ (HexOf s hash ∨ (s = text "0" ∧ hash = List.replicate 32 0))

theorem HexOf.length {s : Str} {bytes : Bytes} (h : HexOf s bytes) :
    s.length = 2 * bytes.length := by
  rw [← length_hexString, ← h.2, upperCase, List.length_map]

/-- Hexadecimal digits are read as the bytes they stand for. -/
theorem HexOf.hexToBytes {s : Str} {bytes : Bytes} (h : HexOf s bytes) : hexToBytes s = bytes :=
  hexString_injective ((hexString_hexToBytes h.1 h.length).2.trans h.2)

/-- Sixty-four hexadecimal digits are those of 32 bytes. -/
theorem exists_hexOf {s : Str} (hlen : s.length = 64) (hs : IsHex s) :
    ∃ bytes : Bytes, bytes.length = 32 ∧ HexOf s bytes := by
  obtain ⟨hlength, hupper⟩ := hexString_hexToBytes hs (n := 32) hlen
  exact ⟨NanoSwift.hexToBytes s, hlength, hs, hupper.symm⟩

theorem hexOf_hexString (bytes : Bytes) : HexOf (hexString bytes) bytes := by
  have hhex := isHex_hexString bytes
  refine ⟨hhex, ?_⟩
  rw [← (hexString_hexToBytes hhex (length_hexString bytes)).2, hexToBytes_hexString]

/-- Prefixes are not hexadecimal. -/
theorem not_isPrefixed_of_isHex {s : Str} (hs : IsHex s) : ¬IsPrefixed s := by
  intro h
  have hno : ∀ t ∈ [text "nano", text "ban_", text "xrb_"], ¬IsHex t := by decide
  exact hno _ h fun c hc => hs c (List.mem_of_mem_take hc)

theorem isPrefixed_rawValue (p : NanoAccountPrefix) (s : Str) : IsPrefixed (p.rawValue ++ s) := by
  cases p
  · exact .head _
  · exact .tail _ (.tail _ (.head _))
  · exact .tail _ (.head _)

theorem AddressOf.symbols {s : Str} {k : Bytes} (h : AddressOf s k) (hk : k.length = 32) :
    ∃ (p : NanoAccountPrefix) (is : List (Fin 32)) (checksum : Str),
      s = p.rawValue ++ is.map symbol ++ checksum ∧ checksum.length = 8 ∧ KeySymbols is k := by
  obtain ⟨p, key, checksum, rfl, hlen, henc⟩ := h
  obtain ⟨is, his, henc'⟩ := encodePublicKey_eq hk
  obtain rfl := Option.some.inj (henc.symm.trans henc')
  exact ⟨p, is, checksum, rfl, hlen, his⟩

theorem addressOf_of_keyAddress {mc : Monocypher} {p : NanoAccountPrefix} {k : Bytes} {a : Str}
    (hk : k.length = 32) (h : keyAddress mc p k = some a) : AddressOf a k := by
  obtain ⟨is, cs, _, henc, hcs, _, heq⟩ := keyAddress_eq mc p hk
  obtain rfl := Option.some.inj (heq.symm.trans h)
  exact ⟨p, _, _, rfl, by rwa [List.length_map], henc⟩

/-- The address of a key names it. -/
theorem denotes_of_keyAddress {mc : Monocypher} {p : NanoAccountPrefix} {k : Bytes} {a : Str}
    (hk : k.length = 32) (h : keyAddress mc p k = some a) : Denotes a k :=
  ⟨hk, .inr (addressOf_of_keyAddress hk h)⟩

theorem denotes_of_hexOf {s : Str} {k : Bytes} (hk : k.length = 32) (h : HexOf s k) : Denotes s k :=
  ⟨hk, .inl h⟩

/-- A field is hashed as the key it names. -/
theorem makeHex_of_denotes {s : Str} {k : Bytes} (h : Denotes s k) :
    ∃ hex, makeHex s = .returns (some hex) ∧ hexToBytes hex = k := by
  obtain ⟨hk, hhex | hadr⟩ := h
  · refine ⟨s, ?_, hhex.hexToBytes⟩
    have hlen : s.length = 64 := by rw [hhex.length, hk]
    simp [makeHex, not_isPrefixed_of_isHex hhex.1, hlen]
  · obtain ⟨p, is, checksum, rfl, hcs, his⟩ := hadr.symbols hk
    refine ⟨hexString k, ?_, hexToBytes_hexString k⟩
    have hpre : IsPrefixed (p.rawValue ++ is.map symbol ++ checksum) := by
      rw [List.append_assoc]
      exact isPrefixed_rawValue p _
    have hlen : (hexString k).length = 64 := by rw [length_hexString, hk]
    simp [makeHex, -List.append_assoc, -BlockCode.write_cons, hpre, splitAddress_rawValue p hcs,
      decodePublicKey, his.decode, keyHex_write, hlen]

theorem Denotes.unique {s : Str} {k k' : Bytes} (h : Denotes s k) (h' : Denotes s k') : k = k' := by
  obtain ⟨hex, heq, rfl⟩ := makeHex_of_denotes h
  obtain ⟨hex', heq', rfl⟩ := makeHex_of_denotes h'
  rw [Option.some.inj (Outcome.returns.inj (heq.symm.trans heq'))]

/-- The previous block is hashed as the hash the field names. -/
theorem DenotesPrevious.bytes {s : Str} {hash : Bytes} (h : DenotesPrevious s hash) :
    (s.length = 64 ∨ s = text "0") ∧ padToLength 32 (hexToBytes s) = hash := by
  obtain ⟨hlen, hhex | ⟨rfl, rfl⟩⟩ := h
  · exact ⟨.inl (by rw [hhex.length, hlen]), by rw [hhex.hexToBytes, padToLength_of_length hlen]⟩
  · exact ⟨.inr rfl, by decide⟩

theorem padToLength_preamble : padToLength 32 (hexToBytes (text "6")) = bigEndian 32 6 := by decide

/-- The message of a block whose texts name keys. -/
theorem unhashed_of_denotes {block : NanoStateBlock} {account previous representative link : Bytes}
    (haccount : Denotes block.account account) (hprevious : DenotesPrevious block.previous previous)
    (hrepresentative : Denotes block.representative representative)
    (hlink : Denotes block.link link) :
    unhashed l block = .returns (bigEndian 32 6 ++ account ++ previous ++ representative ++
      padToLength 16 (block.balance.rawBytes l) ++ link) := by
  obtain ⟨hexAccount, hacc, rfl⟩ := makeHex_of_denotes haccount
  obtain ⟨hexRep, hrep, rfl⟩ := makeHex_of_denotes hrepresentative
  obtain ⟨hexLink, hli, rfl⟩ := makeHex_of_denotes hlink
  obtain ⟨hprev, rfl⟩ := hprevious.bytes
  simp only [unhashed, hacc, hrep, hli, Outcome.lift_returns, Outcome.returns_bind,
    Outcome.guardLet_some, Outcome.guardElse_pos hprev, Outcome.pure_eq, padToLength_preamble,
    padToLength_of_length haccount.1, padToLength_of_length hrepresentative.1,
    padToLength_of_length hlink.1]

/-- A text as the fields for keys should be: 64 hexadecimal digits, or an address
    whose key part is made of 52 characters of the alphabet, the first of which
    is `1` or `3`. -/
def IsKeyText (s : Str) : Prop :=
  (s.length = 64 ∧ IsHex s) ∨
    ∃ (p : NanoAccountPrefix) (key checksum : Str), s = p.rawValue ++ key ++ checksum ∧
      checksum.length = 8 ∧ InAlphabet key ∧ key.length = 52 ∧
        (key.head? = some (.scalar '1') ∨ key.head? = some (.scalar '3'))

/-- A text as the field for the previous block should be. -/
def IsPreviousText (s : Str) : Prop := s = text "0" ∨ (s.length = 64 ∧ IsHex s)

/-- Texts as they should be are those that name keys. -/
theorem isKeyText_iff {s : Str} : IsKeyText s ↔ ∃ k, Denotes s k := by
  constructor
  · rintro (⟨hlen, hhex⟩ | ⟨p, key, checksum, rfl, hcs, hin, hlen, hhead⟩)
    · obtain ⟨k, hk, hhexOf⟩ := exists_hexOf hlen hhex
      exact ⟨k, hk, .inl hhexOf⟩
    · -- The symbols are those of a key, as the first is that of a single bit.
      obtain ⟨is, k, rfl, hk⟩ := exists_keySymbols_iff.2 ⟨hlen, hin, hhead⟩
      exact ⟨k, hk.length_key, .inr ⟨p, _, checksum, rfl, hcs, hk.encode⟩⟩
  · rintro ⟨k, hk, hhex | hadr⟩
    · exact .inl ⟨by rw [hhex.length, hk], hhex.1⟩
    · obtain ⟨p, is, checksum, rfl, hcs, his⟩ := hadr.symbols hk
      obtain ⟨hlen, hin, hhead⟩ := exists_keySymbols_iff.1 ⟨is, k, rfl, his⟩
      exact .inr ⟨p, _, checksum, rfl, hcs, hin, hlen, hhead⟩

theorem isPreviousText_iff {s : Str} : IsPreviousText s ↔ ∃ hash, DenotesPrevious s hash := by
  constructor
  · rintro (rfl | ⟨hlen, hhex⟩)
    · exact ⟨List.replicate 32 0, List.length_replicate .., .inr ⟨rfl, rfl⟩⟩
    · obtain ⟨hash, hhash, hhexOf⟩ := exists_hexOf hlen hhex
      exact ⟨hash, hhash, .inl hhexOf⟩
  · rintro ⟨hash, hlen, hhex | ⟨rfl, _⟩⟩
    · exact .inr ⟨by rw [hhex.length, hlen], hhex.1⟩
    · exact .inl rfl

/-! ## The layout of messages -/

/-- A text that names the key `k`, by an address with its checksum or in
    hexadecimal digits. -/
def KeyText (s : Str) (k : Bytes) : Prop :=
  k.length = 32 ∧ ((∃ p, keyAddress mc p k = some s) ∨ HexOf s k)

variable {mc} in
theorem KeyText.denotes {s : Str} {k : Bytes} (h : KeyText mc s k) : Denotes s k := by
  obtain ⟨hk, ⟨p, hadr⟩ | hhex⟩ := h
  · exact denotes_of_keyAddress hk hadr
  · exact denotes_of_hexOf hk hhex

/-- A printed balance is hashed as its 16 bytes. -/
theorem padToLength_balance {balance : NanoAmount} {b : ℕ} (hb : b < 2 ^ 128)
    (hprint : balance.rawString l = decimal b) :
    padToLength 16 (balance.rawBytes l) = bigEndian 16 b := by
  rw [rawBytes_of_rawString hprint, padToLength_shortBytes (by decide) (hb.trans_eq (by norm_num))]

/-- The layout of the message that is hashed for a block whose fields name keys,
    each by its address or in hexadecimal digits; which of the two makes no
    difference. -/
theorem hashStateBlock_layout :
    (∀ s : Str, ((∃ p k, k.length = 32 ∧ keyAddress mc p k = some s) ∨ (s.length = 64 ∧ IsHex s)) →
      ∃ k, KeyText mc s k) ∧
    (∀ (block : NanoStateBlock) (account previous representative link : Bytes) (b : ℕ),
      KeyText mc block.account account → DenotesPrevious block.previous previous →
      KeyText mc block.representative representative → KeyText mc block.link link →
      b < 2 ^ 128 → block.balance.rawAmount = b → block.balance.rawString l = decimal b →
      ∃ message, message =
          bigEndian 32 6 ++ account ++ previous ++ representative ++ bigEndian 16 b ++ link ∧
        message.length = 176 ∧
        hashStateBlock mc l block = .returns (.success (mc.crypto_blake2b_general 32 message))) ∧
    (∀ (block block' : NanoStateBlock) (account representative link : Bytes),
      KeyText mc block.account account → KeyText mc block'.account account →
      KeyText mc block.representative representative →
      KeyText mc block'.representative representative →
      KeyText mc block.link link → KeyText mc block'.link link →
      IsPreviousText block.previous → block.previous = block'.previous →
      block.balance = block'.balance →
      hashStateBlock mc l block = hashStateBlock mc l block') := by
  refine ⟨?_, ?_, ?_⟩
  · rintro s (⟨p, k, hk, hadr⟩ | ⟨hlen, hhex⟩)
    · exact ⟨k, hk, .inl ⟨p, hadr⟩⟩
    · obtain ⟨k, hk, hhexOf⟩ := exists_hexOf hlen hhex
      exact ⟨k, hk, .inr hhexOf⟩
  · intro block account previous representative link b hacc hprev hrep hlink hb _ hprint
    have hmessage := unhashed_of_denotes l hacc.denotes hprev hrep.denotes hlink.denotes
    rw [padToLength_balance l hb hprint] at hmessage
    refine ⟨_, rfl, ?_, hashStateBlock_of_unhashed mc l hmessage⟩
    simp [hacc.1, hprev.1, hrep.1, hlink.1]
  · -- The keys decide about the message, not the texts that name them.
    intro block block' account representative link hacc hacc' hrep hrep' hlink hlink'
      hprev hpeq hbal
    obtain ⟨previous, hprev⟩ := isPreviousText_iff.1 hprev
    have h := unhashed_of_denotes l hacc.denotes hprev hrep.denotes hlink.denotes
    have h' := unhashed_of_denotes l hacc'.denotes (hpeq ▸ hprev) hrep'.denotes hlink'.denotes
    rw [hashStateBlock_of_unhashed mc l h, hashStateBlock_of_unhashed mc l h', hbal]

/-- The layout for a block of the zero key, named in both ways. -/
theorem hashStateBlock_layout_zero :
    ∃ message, message.length = 176 ∧
      hashStateBlock .reversing .posix
          { previous := text "0"
            account := text "nano_" ++ List.replicate 60 (.scalar '1')
            representative := List.replicate 64 (.scalar '0')
            balance := ⟨5⟩
            link := text "ban_" ++ List.replicate 60 (.scalar '1') } =
        .returns (.success (Monocypher.reversing.crypto_blake2b_general 32 message)) := by
  obtain ⟨message, _, hlen, hhash⟩ := (hashStateBlock_layout .reversing .posix).2.1
    { previous := text "0"
      account := text "nano_" ++ List.replicate 60 (.scalar '1')
      representative := List.replicate 64 (.scalar '0')
      balance := ⟨5⟩
      link := text "ban_" ++ List.replicate 60 (.scalar '1') }
    (List.replicate 32 0) (List.replicate 32 0) (List.replicate 32 0) (List.replicate 32 0) 5
    ⟨rfl, .inl ⟨.nano, keyAddress_zero .nano⟩⟩ ⟨rfl, .inr ⟨rfl, rfl⟩⟩ ⟨rfl, .inr (by decide)⟩
    ⟨rfl, .inl ⟨.banano, keyAddress_zero .banano⟩⟩ (by norm_num) rfl
    (rawString_of_isLatin Locale.posix_isLatin 5)
  exact ⟨message, hlen, hhash⟩

/-! ## Hashed balances -/

/-- The bytes of a message between its first four fields and its last. -/
def balanceField (message : Bytes) : Bytes := (message.drop 128).take (message.length - 160)

/-- The block is refused, or its balance is an integer of 16 bytes, and these are
    the balance in the message that is hashed. -/
def BalanceHashed (block : NanoStateBlock) : Prop :=
  (∀ hash, hashStateBlock mc l block ≠ .returns (.success hash)) ∨
    ∃ (message : Bytes) (b : ℕ),
      hashStateBlock mc l block = .returns (.success (mc.crypto_blake2b_general 32 message)) ∧
      unhashed l block = .returns message ∧ block.balance.rawAmount = b ∧ b < 2 ^ 128 ∧
      balanceField message = bigEndian 16 b ∧ message.length = 176

/-- With Latin digits, a block whose texts name keys is refused or hashed with
    its own balance if and only if its balance is an integer of 16 bytes. -/
theorem balanceHashed_iff (hl : l.IsLatin) {block : NanoStateBlock}
    (haccount : IsKeyText block.account) (hprevious : IsPreviousText block.previous)
    (hrepresentative : IsKeyText block.representative) (hlink : IsKeyText block.link) :
    BalanceHashed mc l block ↔ ∃ b : ℕ, block.balance.rawAmount = b ∧ b < 2 ^ 128 := by
  obtain ⟨account, hacc⟩ := isKeyText_iff.1 haccount
  obtain ⟨previous, hprev⟩ := isPreviousText_iff.1 hprevious
  obtain ⟨representative, hrep⟩ := isKeyText_iff.1 hrepresentative
  obtain ⟨link, hli⟩ := isKeyText_iff.1 hlink
  have hmessage := unhashed_of_denotes l hacc hprev hrep hli
  have hhash := hashStateBlock_of_unhashed mc l hmessage
  constructor
  · -- No balance is a reason to refuse the block.
    rintro (hno | ⟨_, b, _, _, hb, hlt, _⟩)
    · exact absurd hhash (hno _)
    · exact ⟨b, hb, hlt⟩
  · rintro ⟨b, hb, hlt⟩
    have hprint : block.balance.rawString l = decimal b := by
      rw [show block.balance = ⟨b⟩ from NanoAmount.ext hb]
      exact rawString_of_isLatin hl b
    rw [padToLength_balance l hlt hprint] at hmessage hhash
    have hhead : (bigEndian 32 6 ++ account ++ previous ++ representative).length = 128 := by
      simp [hacc.1, hprev.1, hrep.1]
    have hall : (bigEndian 32 6 ++ account ++ previous ++ representative ++ bigEndian 16 b ++
        link).length = 176 := by
      rw [List.append_assoc, List.length_append, hhead]
      simp [hli.1]
    refine .inr ⟨_, b, hhash, hmessage, hb, hlt, ?_, hall⟩
    rw [balanceField, hall, List.append_assoc _ (bigEndian 16 b), List.drop_left' hhead,
      List.take_left' (length_bigEndian 16 b)]

/-- A block that names nothing but the zero key. -/
def zeroBlock (balance : NanoAmount) : NanoStateBlock where
  previous := text "0"
  account := List.replicate 64 (.scalar '0')
  representative := List.replicate 64 (.scalar '0')
  balance := balance
  link := List.replicate 64 (.scalar '0')

theorem hexOf_zeros : HexOf (List.replicate 64 (.scalar '0')) (List.replicate 32 0) := by decide

theorem denotes_zeros : Denotes (List.replicate 64 (.scalar '0')) (List.replicate 32 0) :=
  denotes_of_hexOf rfl hexOf_zeros

theorem unhashed_zeroBlock (balance : NanoAmount) :
    ∃ message, unhashed l (zeroBlock balance) = .returns message :=
  ⟨_, unhashed_of_denotes l denotes_zeros ⟨rfl, .inr ⟨rfl, rfl⟩⟩ denotes_zeros denotes_zeros⟩

theorem balanceHashed_zeroBlock : BalanceHashed .reversing .posix (zeroBlock ⟨5⟩) := by
  have hzeros := isKeyText_iff.2 ⟨_, denotes_zeros⟩
  exact (balanceHashed_iff .reversing .posix Locale.posix_isLatin hzeros (.inl rfl) hzeros hzeros).2
    ⟨5, rfl, by norm_num⟩

/-- A negative balance is hashed all the same. -/
theorem not_balanceHashed_zeroBlock : ¬BalanceHashed .reversing .posix (zeroBlock ⟨-5⟩) := by
  obtain ⟨message, hmessage⟩ := unhashed_zeroBlock .posix ⟨-5⟩
  rintro (hno | ⟨_, b, _, _, hb, _⟩)
  · exact hno _ (hashStateBlock_of_unhashed _ _ hmessage)
  · have hneg : (-5 : ℚ) = b := hb
    linarith [Nat.cast_nonneg (α := ℚ) b]

end NanoSwift
