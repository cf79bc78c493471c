import NanoSwift.Monocypher.EdDSA
import NanoSwift.Wallet
import NanoSwift.Send
import NanoSwift.Pending

/-!
# Signed blocks

The library with the functions of Monocypher in place of its parameter
(`monocypher`). A block verifies (`Verifies`) if its account names a key under
which its signature is one of its hash, which is the hash of its fields: the block
is all that is needed to check it.

* What an account signs verifies if it has the public key of its private key, and
  the address of that (`verifies_signedBy`).
* In every run of a wallet its accounts are created ones (`isCreated_of_mem_states`),
  which have them: all blocks they send and receive verify (`run_verifies`).
-/

namespace NanoSwift

/-- The functions of Monocypher, as the library calls them. -/
def monocypher : Monocypher where
  crypto_blake2b_general hashSize message := MonocypherC.crypto_blake2b_general hashSize [] message
  crypto_sign_public_key := MonocypherC.crypto_sign_public_key
  crypto_sign secretKey publicKey message :=
    MonocypherC.crypto_sign secretKey (some publicKey) message
  length_blake2b _ h message := MonocypherC.length_crypto_blake2b_general h (Nat.zero_le _) message
  length_public_key := MonocypherC.length_crypto_sign_public_key
  length_sign := MonocypherC.length_crypto_sign

/-- The account of the block names the key, its hash is that of its fields, and its
    signature is accepted as one of the hash under the key. -/
structure Verifies (l : Locale) (key hash signature : Bytes) (block : NanoStateBlock) : Prop where
  account : Denotes block.account key
  hashed : hashStateBlock monocypher l block = .returns (.success hash)
  hash_eq : block.hash = some hash
  signature_eq : block.signature = some signature
  length_signature : signature.length = 64
  checked : MonocypherC.crypto_check signature key hash = 0

/-! ## What is built -/

section Built

variable {mc : Monocypher} {l : Locale} {account : NanoAccount} {block : NanoStateBlock}

/-- The block has a message, with which the account has hashed and signed it. -/
def SignedBy (mc : Monocypher) (l : Locale) (account : NanoAccount) (block : NanoStateBlock) :
    Prop :=
  ∃ unsigned message, unsigned.account = account.publicAddress ∧
    unhashed l unsigned = .returns message ∧ block = signedBlock mc account unsigned message

theorem signedBy_of_hashAndSign {unsigned : NanoStateBlock}
    (haccount : unsigned.account = account.publicAddress)
    (h : hashAndSign mc l account unsigned = .returns block) : SignedBy mc l account block := by
  obtain ⟨message, hmessage, hblock⟩ := (hashAndSign_eq_returns mc l).1 h
  exact ⟨unsigned, message, haccount, hmessage, hblock⟩

theorem signedBy_of_sendBlock {recipient : Str} {amount : NanoAmount}
    (h : sendBlock mc l account recipient amount = .returns block) :
    SignedBy mc l account block := by
  simp only [sendBlock, Outcome.bind_eq_returns] at h
  obtain ⟨_, _, _, _, _, _, _, _, _, _, _, _, hsigned⟩ := h
  exact signedBy_of_hashAndSign rfl hsigned

theorem signedBy_of_receiveBlock {hash : Str} {amount : NanoAmount}
    (h : receiveBlock mc l account hash amount = .returns block) :
    SignedBy mc l account block := by
  simp only [receiveBlock, Outcome.bind_eq_returns] at h
  obtain ⟨_, _, _, _, hsigned⟩ := h
  exact signedBy_of_hashAndSign rfl hsigned

/-- The loop over the pending blocks builds nothing but blocks that receive one. -/
theorem signedBy_of_mem_receiveAll {net : Network} {node : NanoNode}
    {pending : List NanoPendingBlock} {past : List Json}
    (h : block ∈ (receiveAll mc l net node account pending past).1) :
    SignedBy mc l account block := by
  induction pending generalizing past with
  | nil => simp [receiveAll] at h
  | cons p pending ih =>
    rw [receiveAll] at h
    cases hreceive : receivePendingBlock mc l account p with
    | throws e => simp [hreceive] at h
    | traps t => simp [hreceive] at h
    | returns received =>
      have hsigned : SignedBy mc l account received := signedBy_of_receiveBlock hreceive
      -- Whether or not it gets published, the block is the first of those built.
      cases hpublish : publishReceive l net node account received past with
      | throws e =>
        simp only [hreceive, hpublish, List.mem_singleton] at h
        exact h ▸ hsigned
      | traps t =>
        simp only [hreceive, hpublish, List.mem_singleton] at h
        exact h ▸ hsigned
      | returns result =>
        simp only [hreceive, hpublish, List.mem_cons] at h
        rcases h with rfl | h
        · exact hsigned
        · exact ih h

end Built

/-! ## What verifies -/

/-- The signature of a hash is accepted under the public key of the private one. -/
theorem check_signStateBlockHash {hash : Bytes} (privateKey : Bytes) (hhash : hash.length = 32) :
    (signStateBlockHash monocypher hash privateKey).length = 64 ∧
      MonocypherC.crypto_check (signStateBlockHash monocypher hash privateKey)
        (derivePublicKey monocypher privateKey) hash = 0 := by
  rw [signStateBlockHash, Option.getD_none, List.take_of_length_le hhash.le]
  exact MonocypherC.crypto_check_crypto_sign privateKey hash
    (List.mem_cons_of_mem none List.mem_cons_self)

/-- What an account in order signs verifies under its key. -/
theorem verifies_signedBy {l : Locale} {block : NanoStateBlock} (account : NanoAccount)
    (hkey : account.publicKey = derivePublicKey monocypher account.privateKey)
    (haddress :
      keyAddress monocypher account.accountPrefix account.publicKey = some account.publicAddress)
    (h : SignedBy monocypher l account block) :
    ∃ hash signature, Verifies l account.publicKey hash signature block := by
  obtain ⟨unsigned, message, hadr, hmessage, rfl⟩ := h
  have hdenotes : Denotes unsigned.account account.publicKey := by
    rw [hadr]
    exact denotes_of_keyAddress (hkey ▸ length_derivePublicKey monocypher _) haddress
  obtain ⟨hlen, hcheck⟩ := check_signStateBlockHash account.privateKey
    (monocypher.length_blake2b 32 (by decide) message)
  -- The hash and the signature are no part of the message.
  refine ⟨_, _, hdenotes, hashStateBlock_of_unhashed monocypher l hmessage, rfl, rfl, hlen, ?_⟩
  rw [hkey]
  exact hcheck

/-! ## Runs -/

section Accounts

variable {mc : Monocypher}

/-- An account of some seed. -/
def IsCreated (mc : Monocypher) (account : NanoAccount) : Prop :=
  ∃ seed index type, newAccount mc seed index type = .returns account

/-- An operation on a wallet adds no other accounts than created ones. -/
theorem isCreated_step {wallet wallet' : NanoWallet} (operation : WalletOperation)
    (h : ∀ account ∈ wallet.accounts.accounts, IsCreated mc account)
    (hstep : operation.step mc wallet = some wallet') :
    ∀ account ∈ wallet'.accounts.accounts, IsCreated mc account := by
  cases operation with
  | remove index =>
    obtain rfl := Option.some.inj hstep
    exact fun account haccount => h account (List.mem_filter.1 haccount).1
  | newAccount index =>
    rcases newAccountInto_cases mc wallet with
      ⟨_, htrap⟩ | ⟨next, account, accounts, _, hnew, _, _, haccounts, _, _, hcalls⟩
    · -- The call traps: there is no wallet after it.
      simp [WalletOperation.step, htrap] at hstep
    · simp only [WalletOperation.step, hcalls, Option.some.injEq] at hstep
      subst hstep
      intro account' hmem
      rw [haccounts, List.mem_append, List.mem_singleton] at hmem
      rcases hmem with hmem | rfl
      · exact h account' hmem
      · exact ⟨_, _, _, hnew⟩

/-- All accounts of a wallet are created ones, in every run from a new wallet. -/
theorem isCreated_of_mem_states {generated : Bytes} {seed : Option Bytes} {withBaseAccount : Bool}
    {type : NanoType} {operations : List WalletOperation} {wallet wallet' : NanoWallet}
    (hnew : newWallet mc generated seed withBaseAccount type = .returns wallet)
    (hmem : wallet' ∈ Runs.states (WalletOperation.step mc) wallet operations) :
    ∀ account ∈ wallet'.accounts.accounts, IsCreated mc account := by
  -- A seed that is not given is generated.
  have hseed : newWallet mc generated seed withBaseAccount type =
      newWallet mc generated (some (seed.getD generated)) withBaseAccount type := by
    cases seed <;> rfl
  obtain ⟨wallet₀, hnew₀, _, hderived, _⟩ :=
    newWallet_eq mc generated (seed.getD generated) withBaseAccount type
  obtain rfl := Outcome.returns.inj (hnew.symm.trans (hseed.trans hnew₀))
  have hstart : ∀ account ∈ wallet.accounts.accounts, IsCreated mc account :=
    fun account haccount => ⟨_, _, _, hderived.accounts account haccount⟩
  exact Runs.forall_states hstart (fun operation _ _ _ h hstep => isCreated_step operation h hstep)
    wallet' hmem

end Accounts

/-- Whatever is done with a wallet, and whatever its accounts are told about themselves, every
    block that one of them sends, and every block that it builds in the loop over pending ones,
    verifies under the key of the account. -/
theorem run_verifies {generated : Bytes} {seed : Option Bytes} {withBaseAccount : Bool}
    {type : NanoType} {operations : List WalletOperation} {wallet wallet' : NanoWallet}
    (hnew : newWallet monocypher generated seed withBaseAccount type = .returns wallet)
    (hmem : wallet' ∈ Runs.states (WalletOperation.step monocypher) wallet operations)
    {account : NanoAccount} (haccount : account ∈ wallet'.accounts.accounts) (l : Locale)
    (info : Option NanoAccountInfo) :
    (∀ recipient amount block,
      sendBlock monocypher l { account with accountInfo := info } recipient amount =
          .returns block →
        ∃ hash signature, Verifies l account.publicKey hash signature block) ∧
    ∀ net node pending past,
      ∀ block ∈ (receiveAll monocypher l net node { account with accountInfo := info } pending
          past).1,
        ∃ hash signature, Verifies l account.publicKey hash signature block := by
  obtain ⟨_, _, _, hcreated⟩ := isCreated_of_mem_states hnew hmem account haccount
  obtain ⟨_, _, hkey, _, haddress⟩ := newAccount_returns monocypher hcreated
  refine ⟨fun recipient amount block hblock => ?_, fun net node pending past block hblock => ?_⟩
  · exact verifies_signedBy { account with accountInfo := info } hkey haddress
      (signedBy_of_sendBlock hblock)
  · exact verifies_signedBy { account with accountInfo := info } hkey haddress
      (signedBy_of_mem_receiveAll hblock)

/-- The account of a new wallet with a balance of `7` sends `3` to itself. -/
theorem run_verifies_base : ∃ wallet account,
    newWallet monocypher [] (some (List.replicate 32 0)) true .nano = .returns wallet ∧
      wallet.accounts.accounts = [account] ∧ ∃ info block,
        sendBlock monocypher .posix { account with accountInfo := some info }
            account.publicAddress ⟨(3 : ℕ)⟩ = .returns block ∧
          ∃ hash signature, Verifies .posix account.publicKey hash signature block := by
  obtain ⟨account, hnew, _, _, _, _, hlen, _, haddress⟩ :=
    newAccount_eq monocypher (List.replicate 32 0) 0 .nano
  obtain ⟨accounts, happend, honly⟩ : ∃ accounts,
      NanoAccountArray.empty.append account = (accounts, .returns ()) ∧
        accounts.accounts = [account] := NanoAccountArray.append_of_new rfl
  have hwallet : newWallet monocypher [] (some (List.replicate 32 0)) true .nano =
      .returns ⟨List.replicate 32 0, accounts⟩ := by
    simp [newWallet, hnew, happend, -List.reduceReplicate]
  have haccount : account ∈ accounts.accounts := honly ▸ List.mem_singleton_self account
  -- The account represents itself.
  have hinfo : NanoAccountInfo.Tells monocypher
      { zeroInfo 7 with representative := account.publicAddress } (List.replicate 32 0)
      account.publicKey 7 := ⟨rfl, hexOf_zeros, hlen, ⟨_, haddress⟩, rfl, by norm_num⟩
  have hblock := sendBlock_addressOf Locale.posix_isLatin
    (created_of_newAccount monocypher hnew _) hinfo hlen (addressOf_of_keyAddress hlen haddress)
    (by decide : 3 ≤ 7)
  exact ⟨_, account, hwallet, honly, _, _, hblock, (run_verifies hwallet
    (Runs.start_mem_states _ []) haccount .posix _).1 _ _ _ hblock⟩

end NanoSwift
