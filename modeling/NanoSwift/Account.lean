import NanoSwift.Encoder

/-!
# Accounts

The functions that derive keys and write addresses (`NanoAccountFunctions`), the
account as a value (`NanoAccount`) and its creation from a seed and an index
(`newAccount`).

The cryptography is Monocypher's: BLAKE2b, the derivation of public keys and
signatures are functions of which only the lengths of their results are known
(`Monocypher`). As these are right, encoding a public key and its checksum never
fails (`createChecksum_eq`, `encodePublicKey_eq`), and neither does creating an
account (`newAccount_eq`). Encoding and decoding a key are inverse
(`base32_roundTrip`).
-/

namespace NanoSwift

/-! ## Types -/

/-- The prefix of an address. -/
inductive NanoAccountPrefix
  | nano
  | xrb
  | banano
  deriving DecidableEq

/-- The text of a prefix. -/
def NanoAccountPrefix.rawValue : NanoAccountPrefix → Str
  | nano => text "nano_"
  | xrb => text "xrb_"
  | banano => text "ban_"

/-- The currency of an account. -/
inductive NanoType
  | nano
  | banano
  deriving DecidableEq

/-- The cryptographic functions the library calls. -/
structure Monocypher where
  /-- The BLAKE2b hash of `hashSize` bytes, without a key. -/
  crypto_blake2b_general : (hashSize : ℕ) → (message : Bytes) → Bytes
  /-- The public key of a private key. -/
  crypto_sign_public_key : (secretKey : Bytes) → Bytes
  /-- The signature of a message. -/
  crypto_sign : (secretKey publicKey message : Bytes) → Bytes
  length_blake2b :
    ∀ hashSize ≤ 64, ∀ message, (crypto_blake2b_general hashSize message).length = hashSize
  length_public_key : ∀ secretKey, (crypto_sign_public_key secretKey).length = 32
  length_sign : ∀ secretKey publicKey message, (crypto_sign secretKey publicKey message).length = 64

/-- Functions of the right lengths that can be followed by hand: every result is
    the end of the message or of the key, reversed. -/
def Monocypher.reversing : Monocypher where
  crypto_blake2b_general hashSize message :=
    (message.reverse ++ List.replicate hashSize 0).take hashSize
  crypto_sign_public_key secretKey := (secretKey.reverse ++ List.replicate 32 0).take 32
  crypto_sign secretKey _ message :=
    ((secretKey ++ message).reverse ++ List.replicate 64 0).take 64
  length_blake2b _ _ _ := by simp
  length_public_key _ := by simp
  length_sign _ _ _ := by simp; omega

variable (mc : Monocypher)

/-! ## Account functions -/

/-- The private key of the account `index` of a seed. -/
def derivePrivateKey (seed : Bytes) (index : UInt32) : Bytes :=
  let seedWithIndex := seed ++ indexBytes index
  mc.crypto_blake2b_general 32 seedWithIndex

/-- The public key of a private key. -/
def derivePublicKey (privateKey : Bytes) : Bytes := mc.crypto_sign_public_key privateKey

/-- The text of a public key in an address. -/
def encodePublicKey (publicKey : Bytes) : Option Str := base32NanoEncode publicKey 260

/-- The bits of the text of a public key. -/
def decodePublicKey (encodedPublicKey : Str) : Outcome Never (Option Str) :=
  base32NanoDecode encodedPublicKey

/-- The text of the checksum of a public key in an address. -/
def createChecksum (publicKey : Bytes) : Option Str :=
  let checksum := mc.crypto_blake2b_general 5 publicKey
  base32NanoEncode checksum.reverse 40

theorem length_derivePublicKey (privateKey : Bytes) : (derivePublicKey mc privateKey).length = 32 :=
  mc.length_public_key privateKey

/-- A public key is encoded in its symbols. -/
theorem encodePublicKey_eq {k : Bytes} (hk : k.length = 32) :
    ∃ is, KeySymbols is k ∧ encodePublicKey k = some (is.map symbol) := by
  obtain ⟨is, his⟩ := exists_keySymbols hk
  exact ⟨is, his, his.encode⟩

/-- The text of a key decodes to the key, and what decodes to a key is its text;
    and what is encoded are the bits of the message, filled up on the left. -/
theorem base32_roundTrip :
    (∀ k : Bytes, k.length = 32 → ∃ s bits, encodePublicKey k = some s ∧ s.length = 52 ∧
      InAlphabet s ∧ (s.head? = some (.scalar '1') ∨ s.head? = some (.scalar '3')) ∧
      decodePublicKey s = .returns (some bits) ∧ keyBytes bits = k) ∧
    (∀ s : Str, s.length = 52 → InAlphabet s →
      (s.head? = some (.scalar '1') ∨ s.head? = some (.scalar '3')) →
      ∃ bits, decodePublicKey s = .returns (some bits) ∧ (keyBytes bits).length = 32 ∧
        encodePublicKey (keyBytes bits) = some s) ∧
    ∀ (message : Bytes) (binaryLength : ℕ),
      (base32NanoEncode message binaryLength = none ↔
        ¬5 ∣ max (8 * message.length) binaryLength) ∧
      ∀ s, base32NanoEncode message binaryLength = some s →
        ∃ is : List (Fin 32), s = is.map symbol ∧
          (is.flatMap fun i : Fin 32 => Radix.fixed 2 5 i) =
            List.replicate (binaryLength - 8 * message.length) 0 ++
              message.flatMap fun byte : UInt8 => Radix.fixed 2 8 byte.toNat := by
  refine ⟨fun k hk => ?_, fun s hlen hin hhead => ?_, fun message binaryLength => ?_⟩
  · obtain ⟨is, his, henc⟩ := encodePublicKey_eq hk
    obtain ⟨hlen, hin, hhead⟩ := exists_keySymbols_iff.1 ⟨is, k, rfl, his⟩
    exact ⟨_, _, henc, hlen, hin, hhead, his.decode, keyBytes_write 0 k⟩
  · -- The symbols are those of a key, as the first is that of a single bit.
    obtain ⟨is, k, rfl, hk⟩ := exists_keySymbols_iff.2 ⟨hlen, hin, hhead⟩
    refine ⟨_, hk.decode, ?_, ?_⟩
    · rw [keyBytes_write, hk.length_key]
    · rw [keyBytes_write]
      exact hk.encode
  · exact ⟨base32NanoEncode_eq_none_iff message binaryLength,
      fun s => base32NanoEncode_eq_some_iff.1⟩

/-- A checksum has eight symbols. -/
theorem createChecksum_eq (k : Bytes) :
    ∃ is : List (Fin 32), is.length = 8 ∧ createChecksum mc k = some (is.map symbol) := by
  have hlen : (mc.crypto_blake2b_general 5 k).reverse.length = 5 := by
    rw [List.length_reverse, mc.length_blake2b 5 (by decide)]
  -- Forty bits are eight groups of five.
  exact exists_base32NanoEncode (by rw [hlen]; rfl)

/-- The address of a public key under a prefix. -/
def keyAddress (p : NanoAccountPrefix) (publicKey : Bytes) : Option Str := do
  let encodedPublicKey ← encodePublicKey publicKey
  let checksum ← createChecksum mc publicKey
  return p.rawValue ++ encodedPublicKey ++ checksum

/-- An address is its prefix, 52 symbols of the key and eight of the checksum. -/
theorem keyAddress_eq (p : NanoAccountPrefix) {k : Bytes} (hk : k.length = 32) :
    ∃ is cs : List (Fin 32), KeySymbols is k ∧ encodePublicKey k = some (is.map symbol) ∧
      cs.length = 8 ∧ createChecksum mc k = some (cs.map symbol) ∧
      keyAddress mc p k = some (p.rawValue ++ is.map symbol ++ cs.map symbol) := by
  obtain ⟨is, his, henc⟩ := encodePublicKey_eq hk
  obtain ⟨cs, hcs, hchk⟩ := createChecksum_eq mc k
  exact ⟨is, cs, his, henc, hcs, hchk, by simp [keyAddress, henc, hchk]⟩

/-! ## Accounts -/

/-- What a node tells about an account. -/
structure NanoAccountInfo where
  frontier : Str
  open_block : Str
  representative_block : Str
  balance : Str
  modified_timestamp : Str
  block_count : Str
  account_version : Str
  confirmation_height : Str
  confirmation_height_frontier : Str
  representative : Str
  deriving DecidableEq

/-- An account: its keys and its address, and what is known about it. -/
structure NanoAccount where
  index : UInt32
  privateKey : Bytes
  publicKey : Bytes
  accountPrefix : NanoAccountPrefix
  type : NanoType
  encodedPublicKey : Str
  endodedChecksum : Str
  accountInfo : Option NanoAccountInfo
  deriving DecidableEq

/-- The account of a type, with the prefix that goes with it. -/
def NanoAccount.ofType (index : UInt32) (privateKey publicKey : Bytes) (type : NanoType)
    (encodedPublicKey endodedChecksum : Str) : NanoAccount where
  index := index
  privateKey := privateKey
  publicKey := publicKey
  type := type
  accountPrefix := if type = .nano then .nano else .banano
  encodedPublicKey := encodedPublicKey
  endodedChecksum := endodedChecksum
  accountInfo := none

/-- The address of an account. -/
def NanoAccount.publicAddress (account : NanoAccount) : Str :=
  account.accountPrefix.rawValue ++ account.encodedPublicKey ++ account.endodedChecksum

/-- The errors of the account manager. -/
inductive NanoAccountManagerError
  | indexAlreadyExists
  | otherError
  deriving DecidableEq

/-- The account `index` of a seed. -/
def newAccount (seed : Bytes) (index : UInt32) (type : NanoType) :
    Outcome NanoAccountManagerError NanoAccount := do
  let privateKey := derivePrivateKey mc seed index
  let publicKey := derivePublicKey mc privateKey
  let encodedPublicKey ← Outcome.guardLet (encodePublicKey publicKey) .otherError
  let checksum ← Outcome.guardLet (createChecksum mc publicKey) .otherError
  return NanoAccount.ofType index privateKey publicKey type encodedPublicKey checksum

/-- The account `index` of a seed, as it is created. -/
theorem newAccount_eq (seed : Bytes) (index : UInt32) (type : NanoType) :
    ∃ account, newAccount mc seed index type = .returns account ∧
      account.index = index ∧ account.type = type ∧
      account.privateKey = derivePrivateKey mc seed index ∧
      account.publicKey = derivePublicKey mc account.privateKey ∧
      account.publicKey.length = 32 ∧
      account.accountInfo = none ∧
      keyAddress mc account.accountPrefix account.publicKey = some account.publicAddress := by
  have hlen := length_derivePublicKey mc (derivePrivateKey mc seed index)
  obtain ⟨is, cs, _, henc, _, hchk, hadr⟩ :=
    keyAddress_eq mc (if type = .nano then NanoAccountPrefix.nano else .banano) hlen
  refine ⟨NanoAccount.ofType index (derivePrivateKey mc seed index)
    (derivePublicKey mc (derivePrivateKey mc seed index)) type (is.map symbol) (cs.map symbol),
    ?_, rfl, rfl, rfl, rfl, hlen, rfl, hadr⟩
  simp only [newAccount, henc, hchk, Outcome.guardLet_some, Outcome.returns_bind, Outcome.pure_eq]

/-- A created account has the address of its public key, 32 bytes long. -/
theorem newAccount_returns {seed : Bytes} {index : UInt32} {type : NanoType} {account : NanoAccount}
    (h : newAccount mc seed index type = .returns account) :
    account.index = index ∧ account.privateKey = derivePrivateKey mc seed index ∧
      account.publicKey = derivePublicKey mc account.privateKey ∧ account.publicKey.length = 32 ∧
      keyAddress mc account.accountPrefix account.publicKey = some account.publicAddress := by
  obtain ⟨account', h', hi, _, hpriv, hpub, hlen, _, hadr⟩ := newAccount_eq mc seed index type
  obtain rfl := Outcome.returns.inj (h.symm.trans h')
  exact ⟨hi, hpriv, hpub, hlen, hadr⟩

theorem newAccount_type {seed : Bytes} {index : UInt32} {type : NanoType} {account : NanoAccount}
    (h : newAccount mc seed index type = .returns account) : account.type = type := by
  obtain ⟨account', h', _, htype, _⟩ := newAccount_eq mc seed index type
  rw [Outcome.returns.inj (h.symm.trans h'), htype]

theorem newAccount_accountPrefix {seed : Bytes} {index : UInt32} {type : NanoType}
    {account : NanoAccount} (h : newAccount mc seed index type = .returns account) :
    account.accountPrefix = if type = .nano then .nano else .banano := by
  simp only [newAccount, Outcome.bind_eq_returns, Outcome.guardLet_eq_returns] at h
  obtain ⟨encodedPublicKey, _, checksum, _, h⟩ := h
  obtain rfl := Outcome.returns.inj h
  rfl

/-- The account of the zero key, as it follows from reversing a seed of zeros. -/
def zeroAccount : NanoAccount :=
  .ofType 0 (List.replicate 32 0) (List.replicate 32 0) .nano (List.replicate 52 (.scalar '1'))
    (List.replicate 8 (.scalar '1'))

theorem newAccount_zero :
    newAccount .reversing (List.replicate 32 0) 0 .nano = .returns zeroAccount := by decide +kernel

theorem keyAddress_zero (p : NanoAccountPrefix) : keyAddress .reversing p (List.replicate 32 0) =
    some (p.rawValue ++ List.replicate 60 (.scalar '1')) := by
  cases p <;> decide +kernel

end NanoSwift
