import NanoSwift.BlockChecks

/-!
# Sending and receiving

The blocks that send and receive an amount (`NanoBlockManager`): a block is built
from what is known about the account (`NanoAccountInfo`), and then hashed and
signed (`hashAndSign`, the end of both functions).

* The blocks of an account whose information is in order (`Tells`) are hashed by
  a message of a fixed layout (`unhashed_accountBlock`).
-/

namespace NanoSwift

/-! ## The functions of the library -/

/-- The errors of building a block. -/
inductive NanoBlockManagerError
  | noFrontier
  | noRepresentative
  | sendingAccountLowBalance
  | couldNotConvertRecievingAddress
  | otherError
  deriving DecidableEq

variable (mc : Monocypher) (l : Locale)

/-- The balance of an account as far as it is known, else `0`. -/
def NanoAccount.balance (account : NanoAccount) : NanoAmount :=
  .ofRaw l ((account.accountInfo.map NanoAccountInfo.balance).getD (text "0"))

/-- A block, hashed and signed by an account. -/
def hashAndSign (account : NanoAccount) (block : NanoStateBlock) :
    Outcome NanoBlockManagerError NanoStateBlock := do
  let hash ← Outcome.guardLet (← Outcome.lift (hashStateBlock mc l block)).optional .otherError
  return { block with
    hash := some hash
    signature := some (signStateBlockHash mc hash account.privateKey) }

/-- The block that sends an amount to an address. -/
def sendBlock (sendingAccount : NanoAccount) (recievingAddress : Str) (amount : NanoAmount) :
    Outcome NanoBlockManagerError NanoStateBlock := do
  let frontier ← Outcome.guardLet (sendingAccount.accountInfo.map (·.frontier)) .noFrontier
  let representative ←
    Outcome.guardLet (sendingAccount.accountInfo.map (·.representative)) .noRepresentative
  Outcome.guardElse (amount ≤ sendingAccount.balance l) .sendingAccountLowBalance
  let (_, encoded, _) ←
    Outcome.guardLet (splitAddress recievingAddress) .couldNotConvertRecievingAddress
  let recievingPublicKey ←
    Outcome.guardLet (← Outcome.lift (decodePublicKey encoded)) .couldNotConvertRecievingAddress
  hashAndSign mc l sendingAccount
    { previous := frontier
      account := sendingAccount.publicAddress
      representative := representative
      balance := sendingAccount.balance l - amount
      link := keyHex recievingPublicKey }

/-- The block that sends an amount to an account. -/
def sendBlockToAccount (sendingAccount recievingAccount : NanoAccount) (amount : NanoAmount) :
    Outcome NanoBlockManagerError NanoStateBlock :=
  sendBlock mc l sendingAccount recievingAccount.publicAddress amount

/-- The block that receives an amount sent by the block with the hash `hash`. -/
def receiveBlock (account : NanoAccount) (hash : Str) (amount : NanoAmount) :
    Outcome NanoBlockManagerError NanoStateBlock := do
  let frontier ← Outcome.guardLet (account.accountInfo.map (·.frontier)) .noFrontier
  let representative ←
    Outcome.guardLet (account.accountInfo.map (·.representative)) .noRepresentative
  hashAndSign mc l account
    { previous := frontier
      account := account.publicAddress
      representative := representative
      balance := account.balance l + amount
      link := hash }

/-- A pending block: its hash, its amount, and who sent it. -/
structure NanoPendingBlock where
  hash : Str
  amount : NanoAmount
  source : Str

/-- The block that receives a pending one. -/
def receivePendingBlock (account : NanoAccount) (pendingBlock : NanoPendingBlock) :
    Outcome NanoBlockManagerError NanoStateBlock :=
  receiveBlock mc l account pendingBlock.hash pendingBlock.amount

/-! ## Hashing and signing -/

/-- A block with the hash of a message and its signature. -/
def signedBlock (account : NanoAccount) (block : NanoStateBlock) (message : Bytes) :
    NanoStateBlock :=
  { block with
    hash := some (mc.crypto_blake2b_general 32 message)
    signature :=
      some (signStateBlockHash mc (mc.crypto_blake2b_general 32 message) account.privateKey) }

/-- A block that has a message is hashed and signed. -/
theorem hashAndSign_of_unhashed {account : NanoAccount} {block : NanoStateBlock} {message : Bytes}
    (h : unhashed l block = .returns message) :
    hashAndSign mc l account block = .returns (signedBlock mc account block message) := by
  rw [hashAndSign, hashStateBlock_of_unhashed mc l h]
  rfl

/-- What is hashed and signed has a message. -/
theorem hashAndSign_eq_returns {account : NanoAccount} {block block' : NanoStateBlock} :
    hashAndSign mc l account block = .returns block' ↔
      ∃ message, unhashed l block = .returns message ∧
        block' = signedBlock mc account block message := by
  refine ⟨fun h => ?_, ?_⟩
  · obtain ⟨result, hresult, h⟩ := Outcome.bind_eq_returns.1 h
    rw [Outcome.lift_eq_returns] at hresult
    cases hopt : result.optional with
    | none =>
      rw [hopt] at h
      cases h
    | some hash =>
      rw [HashStateBlockResult.optional_eq_some.1 hopt] at hresult
      obtain ⟨message, hmessage, rfl⟩ := (hashStateBlock_eq_success mc l).1 hresult
      rw [hopt] at h
      exact ⟨message, hmessage, (Outcome.returns.inj h).symm⟩
  · rintro ⟨message, hmessage, rfl⟩
    exact hashAndSign_of_unhashed mc l hmessage

/-- Hashing and signing throws nothing but `otherError`. -/
theorem hashAndSign_throws {account : NanoAccount} {block : NanoStateBlock}
    {e : NanoBlockManagerError} (h : hashAndSign mc l account block = .throws e) :
    e = .otherError := by
  rcases Outcome.bind_eq_throws.1 h with h | ⟨result, _, h⟩
  · exact absurd h (Outcome.lift_ne_throws _ _)
  · cases hopt : result.optional with
    | some hash =>
      rw [hopt] at h
      cases h
    | none =>
      rw [hopt] at h
      exact (Outcome.throws.inj h).symm

/-! ## Accounts in order -/

/-- What `info` tells about an account is in order: a frontier, the address of a
    representative and the decimal numeral of a balance of 16 bytes. -/
structure NanoAccountInfo.Tells (info : NanoAccountInfo) (frontier representative : Bytes)
    (balance : ℕ) : Prop where
  frontier_length : frontier.length = 32
  frontier_hex : HexOf info.frontier frontier
  representative_length : representative.length = 32
  representative_address : ∃ p, keyAddress mc p representative = some info.representative
  balance_eq : info.balance = decimal balance
  balance_lt : balance < 2 ^ 128

/-- An account as it is created, with the information `info`. -/
structure NanoAccount.Created (account : NanoAccount) (info : NanoAccountInfo) : Prop where
  publicKey_eq : account.publicKey = derivePublicKey mc account.privateKey
  publicAddress_eq :
    keyAddress mc account.accountPrefix account.publicKey = some account.publicAddress
  accountInfo_eq : account.accountInfo = some info

variable {mc} in
theorem NanoAccount.Created.publicKey_length {account : NanoAccount} {info : NanoAccountInfo}
    (h : account.Created mc info) : account.publicKey.length = 32 := by
  rw [h.publicKey_eq]
  exact length_derivePublicKey mc _

/-- Putting its information into a new account. -/
theorem created_of_newAccount {seed : Bytes} {index : UInt32} {type : NanoType}
    {account : NanoAccount} (h : newAccount mc seed index type = .returns account)
    (info : NanoAccountInfo) :
    NanoAccount.Created mc { account with accountInfo := some info } info := by
  obtain ⟨_, _, hpub, _, hadr⟩ := newAccount_returns mc h
  exact ⟨hpub, hadr, rfl⟩

variable {mc} in
/-- The balance of an account is the one it has been told. -/
theorem NanoAccountInfo.Tells.balance {info : NanoAccountInfo} {frontier representative : Bytes}
    {b : ℕ} (h : info.Tells mc frontier representative b) {account : NanoAccount}
    (haccount : account.accountInfo = some info) : account.balance l = ⟨b⟩ := by
  simp only [NanoAccount.balance, haccount, Option.map_some, Option.getD_some, h.balance_eq,
    NanoAmount.ofRaw_decimal l h.balance_lt]

/-- The message of a block of an account in order. -/
def accountMessage (account : NanoAccount) (frontier representative : Bytes) (balance : ℕ)
    (link : Bytes) : Bytes :=
  bigEndian 32 6 ++ account.publicKey ++ frontier ++ representative ++ bigEndian 16 balance ++ link

/-- The block of an account in order, before it is hashed. -/
def accountBlock (account : NanoAccount) (info : NanoAccountInfo) (balance : NanoAmount)
    (link : Str) : NanoStateBlock where
  previous := info.frontier
  account := account.publicAddress
  representative := info.representative
  balance := balance
  link := link

variable {mc} in
/-- A block of an account in order is hashed by its message. -/
theorem unhashed_accountBlock (hl : l.IsLatin) {account : NanoAccount} {info : NanoAccountInfo}
    {frontier representative link : Bytes} {b : ℕ} (haccount : account.Created mc info)
    (hinfo : info.Tells mc frontier representative b) {balance : ℕ} (hlt : balance < 2 ^ 128)
    {s : Str} (hlink : Denotes s link) :
    unhashed l (accountBlock account info ⟨balance⟩ s) =
      .returns (accountMessage account frontier representative balance link) := by
  obtain ⟨p, hrep⟩ := hinfo.representative_address
  rw [unhashed_of_denotes l
    (denotes_of_keyAddress haccount.publicKey_length haccount.publicAddress_eq)
    ⟨hinfo.frontier_length, .inl hinfo.frontier_hex⟩
    (denotes_of_keyAddress hinfo.representative_length hrep) hlink, accountMessage]
  simp only [accountBlock, padToLength_balance l hlt (rawString_of_isLatin hl balance)]

variable {mc} in
/-- A block of an account with information in order is hashed if its address and
    its link are accepted, and only then. -/
theorem unhashed_accountBlock_iff {account : NanoAccount} {info : NanoAccountInfo}
    {frontier representative : Bytes} {b : ℕ} (hinfo : info.Tells mc frontier representative b)
    {balance : NanoAmount} {link : Str} {message : Bytes} :
    unhashed l (accountBlock account info balance link) = .returns message ↔
      (Accepted account.publicAddress ∧ Accepted link) ∧
        message = messageOf l (accountBlock account info balance link) := by
  obtain ⟨p, hrep⟩ := hinfo.representative_address
  have hrepresentative : Accepted info.representative :=
    (isKeyText_iff.2 ⟨_, denotes_of_keyAddress hinfo.representative_length hrep⟩).accepted
  have hprevious : info.frontier.length = 64 := by
    rw [hinfo.frontier_hex.length, hinfo.frontier_length]
  -- Of the checks, those of the frontier and the representative are passed.
  rw [unhashed_eq_returns]
  refine and_congr_left fun _ => ?_
  simp only [fieldChecks, List.forall_mem_cons, keyCheck, previousCheck, accountBlock,
    hrepresentative, hprevious, true_or, true_and]
  simp

variable {mc} in
theorem length_accountMessage {account : NanoAccount} {info : NanoAccountInfo}
    {frontier representative link : Bytes} {b : ℕ} (haccount : account.Created mc info)
    (hinfo : info.Tells mc frontier representative b) (balance : ℕ) (hlink : link.length = 32) :
    (accountMessage account frontier representative balance link).length = 176 := by
  simp [accountMessage, haccount.publicKey_length, hinfo.frontier_length,
    hinfo.representative_length, hlink]

/-- The information about an account that has `balance`, with zeros for hashes and keys. -/
def zeroInfo (balance : ℕ) : NanoAccountInfo where
  frontier := List.replicate 64 (.scalar '0')
  open_block := List.replicate 64 (.scalar '0')
  representative_block := List.replicate 64 (.scalar '0')
  balance := decimal balance
  modified_timestamp := text "0"
  block_count := text "1"
  account_version := text "2"
  confirmation_height := text "1"
  confirmation_height_frontier := List.replicate 64 (.scalar '0')
  representative := text "nano_" ++ List.replicate 60 (.scalar '1')

theorem zeroInfo_tells {b : ℕ} (hb : b < 2 ^ 128) :
    (zeroInfo b).Tells .reversing (List.replicate 32 0) (List.replicate 32 0) b where
  frontier_length := rfl
  frontier_hex := hexOf_zeros
  representative_length := rfl
  representative_address := ⟨.nano, keyAddress_zero .nano⟩
  balance_eq := rfl
  balance_lt := hb

/-- An account in order, with the balance `7`. -/
def zeroSender : NanoAccount := { zeroAccount with accountInfo := some (zeroInfo 7) }

theorem zeroSender_accountInfo : zeroSender.accountInfo = some (zeroInfo 7) := rfl

theorem zeroSender_created : zeroSender.Created .reversing (zeroInfo 7) :=
  created_of_newAccount .reversing newAccount_zero (zeroInfo 7)

theorem le_zeroSender_balance {m : ℕ} (hm : m ≤ 7) :
    (⟨m⟩ : NanoAmount) ≤ zeroSender.balance .posix := by
  rw [(zeroInfo_tells (b := 7) (by norm_num)).balance .posix zeroSender_accountInfo,
    NanoAmount.le_iff]
  exact Nat.cast_le.2 hm

end NanoSwift
