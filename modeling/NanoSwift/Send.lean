import NanoSwift.AddressCheck
import NanoSwift.BlockManager

/-!
# Sending

What `sendBlock` does with its recipient and its amount.

* From an account whose information is in order, sending to a valid address
  builds the block it should (`Sends`, `sendBlock_correct`).
* The balance is kept unless a negative amount is sent (`balanceKept_iff`).
* The recipient is split and decoded, but not checked: an address is refused only
  if it cannot be split or its key part leaves the alphabet
  (`sendBlock_eq_throws_iff`), so that addresses the checker rejects are sent to
  (`sendBlock_refuses_iff`).
-/

namespace NanoSwift

variable (mc : Monocypher) (l : Locale)

/-! ## Sending -/

/-- The block of an account with the balance `b` that sends `m` to the key `k`,
    hashed and signed. -/
structure Sends (account : NanoAccount) (info : NanoAccountInfo) (frontier representative : Bytes)
    (b m : ℕ) (k : Bytes) (block : NanoStateBlock) : Prop where
  previous_eq : block.previous = info.frontier
  account_eq : block.account = account.publicAddress
  representative_eq : block.representative = info.representative
  balance_add : block.balance + ⟨m⟩ = ⟨b⟩
  link_eq : block.link = hexString k
  length_message : (accountMessage account frontier representative (b - m) k).length = 176
  hash_eq : block.hash =
    some (mc.crypto_blake2b_general 32 (accountMessage account frontier representative (b - m) k))
  rehash : ∀ hash signature work,
    hashStateBlock mc l { block with hash := hash, signature := signature, work := work } =
      .returns (.success
        (mc.crypto_blake2b_general 32 (accountMessage account frontier representative (b - m) k)))
  signature_eq : block.signature = some (mc.crypto_sign account.privateKey account.publicKey
    (mc.crypto_blake2b_general 32 (accountMessage account frontier representative (b - m) k)))

section Sending

variable {mc l} {account : NanoAccount} {info : NanoAccountInfo} {frontier representative : Bytes}
  {b : ℕ}

/-- Sending to an address of a key builds its block, whatever the checksum of the address. -/
theorem sendBlock_addressOf (hl : l.IsLatin) (haccount : account.Created mc info)
    (hinfo : info.Tells mc frontier representative b) {r : Str} {k : Bytes} (hk : k.length = 32)
    (hr : AddressOf r k) {m : ℕ} (hm : m ≤ b) :
    sendBlock mc l account r ⟨m⟩ = .returns
      (signedBlock mc account (accountBlock account info ⟨(b - m : ℕ)⟩ (hexString k))
        (accountMessage account frontier representative (b - m) k)) := by
  obtain ⟨p, is, checksum, rfl, hcs, his⟩ := hr.symbols hk
  have hbalance := hinfo.balance l haccount.accountInfo_eq
  have hle : (⟨m⟩ : NanoAmount) ≤ account.balance l := by
    rw [hbalance, NanoAmount.le_iff]
    exact Nat.cast_le.2 hm
  have hsub : account.balance l - ⟨m⟩ = (⟨((b - m : ℕ) : ℚ)⟩ : NanoAmount) := by
    rw [hbalance, Nat.cast_sub hm]
    rfl
  -- All guards are passed, and the link is the key in hexadecimal digits.
  have hsend : sendBlock mc l account (p.rawValue ++ is.map symbol ++ checksum) ⟨m⟩ =
      hashAndSign mc l account
        (accountBlock account info (account.balance l - ⟨m⟩) (hexString k)) := by
    simp only [sendBlock, haccount.accountInfo_eq, Option.map_some, Outcome.guardLet_some,
      Outcome.returns_bind, Outcome.guardElse_pos hle, splitAddress_rawValue p hcs, decodePublicKey,
      his.decode, Outcome.lift_returns, keyHex_write, accountBlock]
  rw [hsend, hsub]
  exact hashAndSign_of_unhashed mc l (unhashed_accountBlock l hl haccount hinfo
    (hinfo.balance_lt.trans_le' (Nat.sub_le b m)) (denotes_of_hexOf hk (hexOf_hexString k)))

/-- The block built for a key is the one that sends to it. -/
theorem sends_signedBlock (hl : l.IsLatin) (haccount : account.Created mc info)
    (hinfo : info.Tells mc frontier representative b) {k : Bytes} (hk : k.length = 32) {m : ℕ}
    (hm : m ≤ b) :
    Sends mc l account info frontier representative b m k
      (signedBlock mc account (accountBlock account info ⟨(b - m : ℕ)⟩ (hexString k))
        (accountMessage account frontier representative (b - m) k)) where
  previous_eq := rfl
  account_eq := rfl
  representative_eq := rfl
  balance_add := by
    refine NanoAmount.ext ?_
    change ((b - m : ℕ) : ℚ) + m = b
    rw [Nat.cast_sub hm, sub_add_cancel]
  link_eq := rfl
  length_message := length_accountMessage haccount hinfo (b - m) hk
  hash_eq := rfl
  rehash _ _ _ := hashStateBlock_of_unhashed mc l (unhashed_accountBlock l hl haccount hinfo
    (hinfo.balance_lt.trans_le' (Nat.sub_le b m)) (denotes_of_hexOf hk (hexOf_hexString k)))
  signature_eq := by
    -- Of the hash, 32 bytes are signed, which are all of it.
    have hlen := mc.length_blake2b 32 (by decide)
      (accountMessage account frontier representative (b - m) k)
    rw [signedBlock, signStateBlockHash, List.take_of_length_le hlen.le, Option.getD_none,
      haccount.publicKey_eq]

/-- More than the balance is not sent. -/
theorem sendBlock_lowBalance (haccount : account.Created mc info)
    (hinfo : info.Tells mc frontier representative b) {amount : NanoAmount}
    (hm : (b : ℚ) < amount.rawAmount) (r : Str) :
    sendBlock mc l account r amount = .throws .sendingAccountLowBalance := by
  have hnle : ¬amount ≤ account.balance l := by
    rw [hinfo.balance l haccount.accountInfo_eq, NanoAmount.le_iff]
    exact not_le.2 hm
  simp only [sendBlock, haccount.accountInfo_eq, Option.map_some, Outcome.guardLet_some,
    Outcome.returns_bind, Outcome.guardElse_neg hnle, Outcome.throws_bind]

end Sending

/-- From a created account whose information is in order, sending at most the
    balance to a key, by any valid address of it or by a created account with it,
    builds the block that sends the amount to the key; sending more is refused. -/
theorem sendBlock_correct (anchor : EndAnchor) (hl : l.IsLatin) {seed : Bytes} {index : UInt32}
    {type : NanoType} {account : NanoAccount}
    (haccount : newAccount mc seed index type = .returns account)
    {info : NanoAccountInfo} {frontier representative : Bytes} {b : ℕ}
    (hinfo : info.Tells mc frontier representative b) :
    let sender := { account with accountInfo := some info }
    (∀ (k : Bytes) (m : ℕ), k.length = 32 → m ≤ b →
      ∃ block, Sends mc l sender info frontier representative b m k block ∧
        (∀ r, checkIfAddressIsValid mc anchor r = .returns .valid → Denotes r k →
          sendBlock mc l sender r ⟨m⟩ = .returns block) ∧
        (∀ (seed' : Bytes) (index' : UInt32) (type' : NanoType) (recipient : NanoAccount),
          newAccount mc seed' index' type' = .returns recipient → recipient.publicKey = k →
            sendBlockToAccount mc l sender recipient ⟨m⟩ = .returns block)) ∧
    (∀ m : ℕ, b < m →
      (∀ r, sendBlock mc l sender r ⟨m⟩ = .throws .sendingAccountLowBalance) ∧
      ∀ recipient,
        sendBlockToAccount mc l sender recipient ⟨m⟩ = .throws .sendingAccountLowBalance) := by
  have hcreated := created_of_newAccount mc haccount info
  refine ⟨fun k m hk hm => ⟨_, sends_signedBlock hl hcreated hinfo hk hm, ?_, ?_⟩, ?_⟩
  · -- A valid address is one of a key, and names no other key.
    intro r hvalid hdenotes
    obtain ⟨p, k', hk', hadr⟩ := (valid_iff_keyAddress mc anchor).1 hvalid
    obtain rfl := hdenotes.unique (denotes_of_keyAddress hk' hadr)
    exact sendBlock_addressOf hl hcreated hinfo hk' (addressOf_of_keyAddress hk' hadr) hm
  · rintro seed' index' type' recipient hrecipient rfl
    obtain ⟨_, _, _, _, hadr⟩ := newAccount_returns mc hrecipient
    exact sendBlock_addressOf hl hcreated hinfo hk (addressOf_of_keyAddress hk hadr) hm
  · intro m hm
    have hlt : (b : ℚ) < (⟨m⟩ : NanoAmount).rawAmount := Nat.cast_lt.2 hm
    have hlow := sendBlock_lowBalance (l := l) hcreated hinfo hlt
    exact ⟨hlow, fun recipient => hlow _⟩

/-- An account with the balance `7` sends `3` to itself, and cannot send `8`. -/
theorem sendBlock_correct_zero :
    (∃ block,
      sendBlockToAccount .reversing .posix zeroSender zeroAccount ⟨(3 : ℕ)⟩ = .returns block ∧
        block.balance + ⟨(3 : ℕ)⟩ = ⟨(7 : ℕ)⟩) ∧
    sendBlockToAccount .reversing .posix zeroSender zeroAccount ⟨(8 : ℕ)⟩ =
      .throws .sendingAccountLowBalance := by
  obtain ⟨hsend, hlow⟩ := sendBlock_correct .reversing .posix .endOfInput Locale.posix_isLatin
    newAccount_zero (zeroInfo_tells (b := 7) (by norm_num))
  obtain ⟨block, hspec, _, hblock⟩ := hsend (List.replicate 32 0) 3 rfl (by decide)
  exact ⟨⟨block, hblock _ _ _ _ newAccount_zero rfl, hspec.balance_add⟩,
    (hlow 8 (by decide)).2 zeroAccount⟩

/-! ## Balances -/

/-- What the account and the recipient must be like for a block to be sent: the
    recipient splits into a key part that decodes, and the other fields of the block
    are accepted. -/
structure Sendable (account : NanoAccount) (info : NanoAccountInfo) (recipient : Str) : Prop where
  recipient : ∃ p key checksum, Splits recipient p key checksum ∧ InAlphabet key ∧ key.length ≤ 52
  account : Accepted account.publicAddress
  frontier : info.frontier.length = 64 ∨ info.frontier = text "0"
  representative : Accepted info.representative

/-- A block that is sent has what is left of the balance, and its account and
    recipient are as they must be. -/
theorem sendBlock_returns {account : NanoAccount} {info : NanoAccountInfo} {r : Str}
    {amount : NanoAmount} {block : NanoStateBlock} (hinfo : account.accountInfo = some info)
    (h : sendBlock mc l account r amount = .returns block) :
    amount ≤ account.balance l ∧ block.balance = account.balance l - amount ∧
      Sendable account info r := by
  simp only [sendBlock, hinfo, Option.map_some, Outcome.guardLet_some, Outcome.returns_bind,
    Outcome.bind_eq_returns, Outcome.guardElse_eq_returns, Outcome.guardLet_eq_returns,
    Outcome.lift_eq_returns, decodePublicKey] at h
  obtain ⟨_, hle, ⟨p, key, checksum⟩, hsplit, _, hdec, bits, rfl, hsigned⟩ := h
  obtain ⟨message, hmessage, rfl⟩ := (hashAndSign_eq_returns mc l).1 hsigned
  obtain ⟨hkey, _⟩ := exists_keyHex hdec
  -- There is a message only if all fields are accepted.
  have hfields := (unhashed_returns_iff l).1 ⟨message, hmessage⟩
  simp only [fieldChecks, List.forall_mem_cons, keyCheck, previousCheck] at hfields
  obtain ⟨haccount, hfrontier, hrepresentative, _⟩ := hfields
  exact ⟨hle, rfl, ⟨p, key, checksum, splitAddress_eq_some.1 hsplit, hkey⟩, haccount, hfrontier,
    hrepresentative⟩

/-- At most the balance is sent where account and recipient are as they must be. -/
theorem exists_sendBlock {account : NanoAccount} {info : NanoAccountInfo} {r : Str}
    {amount : NanoAmount} (hinfo : account.accountInfo = some info)
    (hamount : amount ≤ account.balance l) (h : Sendable account info r) :
    ∃ block, sendBlock mc l account r amount = .returns block := by
  obtain ⟨⟨p, key, checksum, hsplits, hin, hle⟩, haccount, hfrontier, hrepresentative⟩ := h
  obtain ⟨bits, hdec⟩ := exists_decode hin hle
  obtain ⟨_, k, hk, hkey⟩ := exists_keyHex hdec
  -- The link is the key in hexadecimal digits, which are always accepted.
  have hlink : Accepted (hexString k) :=
    (isKeyText_iff.2 ⟨k, denotes_of_hexOf hk (hexOf_hexString k)⟩).accepted
  obtain ⟨message, hmessage⟩ : ∃ message, unhashed l
      (accountBlock account info (account.balance l - amount) (hexString k)) = .returns message := by
    rw [unhashed_returns_iff]
    simp only [fieldChecks, List.forall_mem_cons, keyCheck, previousCheck, accountBlock]
    exact ⟨haccount, hfrontier, hrepresentative, hlink, by simp⟩
  refine ⟨signedBlock mc account
    (accountBlock account info (account.balance l - amount) (hexString k)) message, ?_⟩
  simp only [sendBlock, hinfo, Option.map_some, Outcome.guardLet_some, Outcome.returns_bind,
    Outcome.guardElse_pos hamount, splitAddress_of_splits hsplits, decodePublicKey, hdec,
    Outcome.lift_returns, hkey]
  exact hashAndSign_of_unhashed mc l hmessage

/-- Whenever a block is sent, what is sent is no debt, and makes up the balance of the
    account with what is left, which is no debt and not more than there was. -/
def BalanceKept (account : NanoAccount) (r : Str) (m : NanoAmount) : Prop :=
  ∀ block, sendBlock mc l account r m = .returns block →
    0 ≤ m.rawAmount ∧ block.balance + m = account.balance l ∧ 0 ≤ block.balance.rawAmount ∧
      block.balance ≤ account.balance l

/-- From an account that owes nothing, the balance is kept if and only if no debt is
    sent, or no block: nothing compares the amount with zero. -/
theorem balanceKept_iff {account : NanoAccount} {info : NanoAccountInfo}
    (hinfo : account.accountInfo = some info) (hbalance : 0 ≤ (account.balance l).rawAmount)
    (r : Str) (m : NanoAmount) :
    BalanceKept mc l account r m ↔ (0 ≤ m.rawAmount ∨ ¬Sendable account info r) := by
  refine ⟨fun h => ?_, fun h block hblock => ?_⟩
  · -- A debt is less than the balance, so that it is sent.
    by_contra hno
    obtain ⟨hneg, hsendable⟩ := not_or.1 hno
    have hle : m ≤ account.balance l :=
      NanoAmount.le_iff.2 ((not_le.1 hneg).le.trans hbalance)
    obtain ⟨block, hblock⟩ := exists_sendBlock mc l hinfo hle (not_not.1 hsendable)
    exact hneg (h block hblock).1
  · obtain ⟨hle, hleft, hsendable⟩ := sendBlock_returns mc l hinfo hblock
    have hm : 0 ≤ m.rawAmount := h.resolve_right (not_not.2 hsendable)
    rw [NanoAmount.le_iff] at hle
    rw [hleft]
    refine ⟨hm, NanoAmount.ext ?_, ?_, NanoAmount.le_iff.2 ?_⟩
    · rw [NanoAmount.add_rawAmount, NanoAmount.sub_rawAmount, sub_add_cancel]
    · rw [NanoAmount.sub_rawAmount]
      exact sub_nonneg.2 hle
    · rw [NanoAmount.sub_rawAmount]
      exact sub_le_self _ hm

theorem zeroSender_balance : (zeroSender.balance .posix).rawAmount = (7 : ℕ) := by
  rw [(zeroInfo_tells (b := 7) (by norm_num)).balance .posix zeroSender_accountInfo]

/-- Three of seven are sent, and four are left. -/
theorem balanceKept_three : BalanceKept .reversing .posix zeroSender
    (text "nano_" ++ List.replicate 60 (.scalar '1')) ⟨3⟩ := by
  refine (balanceKept_iff .reversing .posix zeroSender_accountInfo ?_ _ _).2 (.inl (by norm_num))
  rw [zeroSender_balance]
  exact Nat.cast_nonneg 7

/-- Sending a debt of five raises the balance. -/
theorem not_balanceKept_debt : ¬BalanceKept .reversing .posix zeroSender
    (text "nano_" ++ List.replicate 60 (.scalar '1'))
    (.ofRaw .posix (text "0") - .ofRaw .posix (text "5")) := by
  have hdebt : (NanoAmount.ofRaw .posix (text "0") - .ofRaw .posix (text "5")).rawAmount = -5 := by
    rw [NanoAmount.sub_rawAmount, show text "0" = decimal 0 from rfl,
      show text "5" = decimal 5 by decide +kernel, NanoAmount.ofRaw_decimal _ (by norm_num),
      NanoAmount.ofRaw_decimal _ (by norm_num)]
    norm_num
  intro h
  -- The account can send to itself, as it does when it sends nothing.
  have hself : AddressOf (text "nano_" ++ List.replicate 60 (.scalar '1')) (List.replicate 32 0) :=
    addressOf_of_keyAddress rfl (keyAddress_zero .nano)
  have hnothing := sendBlock_addressOf Locale.posix_isLatin zeroSender_created
    (zeroInfo_tells (b := 7) (by norm_num)) rfl hself (Nat.zero_le 7)
  obtain ⟨_, _, hsendable⟩ := sendBlock_returns _ _ zeroSender_accountInfo hnothing
  have hle : NanoAmount.ofRaw .posix (text "0") - .ofRaw .posix (text "5") ≤
      zeroSender.balance .posix := by
    rw [NanoAmount.le_iff, hdebt, zeroSender_balance]
    norm_num
  obtain ⟨block, hblock⟩ := exists_sendBlock .reversing .posix zeroSender_accountInfo hle hsendable
  have hneg := (h block hblock).1
  rw [hdebt] at hneg
  linarith

/-! ## Recipients -/

/-- The recipient is refused if it cannot be split into a key part in the
    alphabet, and only then. -/
theorem sendBlock_eq_throws_iff {account : NanoAccount} {info : NanoAccountInfo}
    {amount : NanoAmount} (hinfo : account.accountInfo = some info)
    (hamount : amount ≤ account.balance l) (r : Str) :
    sendBlock mc l account r amount = .throws .couldNotConvertRecievingAddress ↔
      ¬∃ p key checksum, Splits r p key checksum ∧ InAlphabet key := by
  simp only [sendBlock, hinfo, Option.map_some, Outcome.guardLet_some, Outcome.returns_bind,
    Outcome.guardElse_pos hamount]
  refine ⟨?_, fun hno => ?_⟩
  · -- After decoding, no other error is thrown than `otherError`.
    rintro h ⟨p, key, checksum, hsplits, hin⟩
    rw [splitAddress_of_splits hsplits, Outcome.guardLet_some, Outcome.returns_bind,
      decodePublicKey] at h
    rcases base32NanoDecode_cases key with ⟨hno, _⟩ | ⟨_, _, hdec⟩ | ⟨_, _, bytes, _, hdec⟩
    · exact hno hin
    · rw [hdec] at h
      cases h
    · rw [hdec] at h
      exact NanoBlockManagerError.noConfusion (hashAndSign_throws mc l h)
  · rcases hsplit : splitAddress r with _ | ⟨p, key, checksum⟩
    · rfl
    · have hout : ¬InAlphabet key := fun hin =>
        hno ⟨p, key, checksum, splitAddress_eq_some.1 hsplit, hin⟩
      rw [Outcome.guardLet_some, Outcome.returns_bind, decodePublicKey,
        base32NanoDecode_eq_none hout]
      rfl

/-- Recipients that the address checker does not call valid are refused if and
    only if they cannot be split into a key part in the alphabet: what comes after
    the key, and the length of the key, are not looked at. -/
theorem sendBlock_refuses_iff (anchor : EndAnchor) {account : NanoAccount} {info : NanoAccountInfo}
    {amount : NanoAmount} (hinfo : account.accountInfo = some info)
    (hamount : amount ≤ account.balance l) (r : Str) :
    (checkIfAddressIsValid mc anchor r ≠ .returns .valid →
      sendBlock mc l account r amount = .throws .couldNotConvertRecievingAddress) ↔
    (checkIfAddressIsValid mc anchor r = .returns .valid ∨
      ¬∃ p key checksum, Splits r p key checksum ∧ InAlphabet key) := by
  rw [← sendBlock_eq_throws_iff mc l hinfo hamount, or_iff_not_imp_left]

/-- An address is refused if a letter outside the alphabet stands in its key part. -/
theorem sendBlock_refuses_letter : sendBlock .reversing .posix zeroSender
    (text "nano_l" ++ List.replicate 59 (.scalar '1')) ⟨(3 : ℕ)⟩ =
      .throws .couldNotConvertRecievingAddress := by
  refine (sendBlock_refuses_iff .reversing .posix .endOfInput zeroSender_accountInfo
    (le_zeroSender_balance (by decide)) _).2 (.inr ?_) (by decide +kernel)
  rintro ⟨p, key, checksum, hsplits, hin⟩
  obtain ⟨key', hkey', hout⟩ : ∃ key', (splitAddress
      (text "nano_l" ++ List.replicate 59 (.scalar '1'))).map (·.2.1) = some key' ∧
        ¬InAlphabet key' :=
    ⟨text "l" ++ List.replicate 51 (.scalar '1'), by decide +kernel, by decide⟩
  rw [splitAddress_of_splits hsplits] at hkey'
  exact hout (Option.some.inj hkey' ▸ hin)

/-- A block is built for a recipient with a wrong checksum. -/
theorem sendBlock_accepts_checksum :
    zeroSender.Created .reversing (zeroInfo 7) ∧
    (zeroInfo 7).Tells .reversing (List.replicate 32 0) (List.replicate 32 0) 7 ∧
    (⟨(3 : ℕ)⟩ : NanoAmount) ≤ zeroSender.balance .posix ∧
    checkIfAddressIsValid .reversing .endOfInput
      (text "nano_" ++ List.replicate 52 (.scalar '1') ++ List.replicate 8 (.scalar '3')) =
        .returns .invalidChecksum ∧
    ∃ block, sendBlock .reversing .posix zeroSender
      (text "nano_" ++ List.replicate 52 (.scalar '1') ++ List.replicate 8 (.scalar '3'))
      ⟨(3 : ℕ)⟩ = .returns block := by
  have hinfo := zeroInfo_tells (b := 7) (by norm_num)
  have henc : encodePublicKey (List.replicate 32 0) = some (List.replicate 52 (.scalar '1')) := by
    decide +kernel
  exact ⟨zeroSender_created, hinfo, le_zeroSender_balance (by decide), by decide +kernel, _,
    sendBlock_addressOf Locale.posix_isLatin zeroSender_created hinfo (k := List.replicate 32 0) rfl
      ⟨.nano, _, _, rfl, rfl, henc⟩ (by decide)⟩

end NanoSwift
