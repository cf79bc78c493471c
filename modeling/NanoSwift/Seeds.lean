import NanoSwift.AddressCheck

/-!
# Seeds

What comes of a seed: the text it is read from is not checked, so that any text
names accounts (`seedChecked_iff`); and accounts of different seeds, indices or
currencies have different addresses, as far as the cryptography tells its inputs
apart (`publicAddress_eq_iff`).
-/

namespace NanoSwift

variable (mc : Monocypher)

/-! ## Texts of seeds -/

/-- Creating an account from the text of a seed reports a text that is not 64
    hexadecimal digits; of one that is, the private key is the hash of the 32 bytes
    and the four bytes of the index. -/
structure SeedChecked (s : Str) (index : UInt32) (type : NanoType) : Prop where
  reported : ¬(s.length = 64 ∧ IsHex s) →
    newAccount mc (hexToBytes s) index type = .throws .otherError
  derived : s.length = 64 → IsHex s → ∃ (account : NanoAccount) (seed number : Bytes),
    newAccount mc (hexToBytes s) index type = .returns account ∧
    seed.length = 32 ∧ hexString seed = upperCase s ∧
    number.length = 4 ∧ bytesValue number = index.toNat ∧
    account.privateKey = mc.crypto_blake2b_general 32 (seed ++ number)

/-- The text of a seed is checked if and only if there is nothing to report: an
    account is created from any text. -/
theorem seedChecked_iff (s : Str) (index : UInt32) (type : NanoType) :
    SeedChecked mc s index type ↔ s.length = 64 ∧ IsHex s := by
  obtain ⟨account, hnew, _, _, hprivate, _⟩ := newAccount_eq mc (hexToBytes s) index type
  refine ⟨fun h => ?_, fun hseed => ⟨fun hno => absurd hseed hno, fun hlen hhex => ?_⟩⟩
  · by_contra hno
    have hthrows := h.reported hno
    rw [hnew] at hthrows
    cases hthrows
  · obtain ⟨hlength, hupper⟩ := hexString_hexToBytes hhex (n := 32) hlen
    exact ⟨account, hexToBytes s, indexBytes index, hnew, hlength, hupper, length_bigEndian _ _,
      bytesValue_indexBytes index, hprivate⟩

/-- The last digit of a seed of zeros is missing, and the account is that of the
    whole one. -/
theorem not_seedChecked_missing :
    ¬SeedChecked .reversing (List.replicate 63 (.scalar '0')) 0 .nano := by
  have hread : hexToBytes (List.replicate 63 (.scalar '0')) = List.replicate 32 0 := by
    decide +kernel
  intro h
  have hthrows := h.reported (by decide)
  rw [hread, newAccount_zero] at hthrows
  cases hthrows

/-! ## Addresses of seeds -/

/-- What is hashed for a private key determines the seed and the index. -/
theorem seedWithIndex_inj {s₁ s₂ : Bytes} {i₁ i₂ : UInt32} :
    s₁ ++ indexBytes i₁ = s₂ ++ indexBytes i₂ ↔ s₁ = s₂ ∧ i₁ = i₂ := by
  refine ⟨fun h => ?_, fun h => by rw [h.1, h.2]⟩
  -- The index is the last four bytes, however long the seed is.
  obtain ⟨hseed, hindex⟩ := List.append_inj' h (by rw [indexBytes, indexBytes, length_bigEndian,
    length_bigEndian])
  exact ⟨hseed, indexBytes_injective hindex⟩

/-- The prefix of an address tells the currency. -/
theorem accountPrefix_inj {t₁ t₂ : NanoType}
    (h : (if t₁ = .nano then NanoAccountPrefix.nano else .banano) =
      if t₂ = .nano then .nano else .banano) : t₁ = t₂ := by
  cases t₁ <;> cases t₂ <;> first | rfl | cases h

variable {mc} in
/-- Where hashing tells the two messages apart, and the derivation of public keys the two
    private keys, accounts have one address if and only if they are of one currency, one
    seed and one index. -/
theorem publicAddress_eq_iff {s₁ s₂ : Bytes} {i₁ i₂ : UInt32} {t₁ t₂ : NanoType}
    {a₁ a₂ : NanoAccount}
    (hhash : Set.InjOn (mc.crypto_blake2b_general 32) {s₁ ++ indexBytes i₁, s₂ ++ indexBytes i₂})
    (hkey : Set.InjOn mc.crypto_sign_public_key {a₁.privateKey, a₂.privateKey})
    (h₁ : newAccount mc s₁ i₁ t₁ = .returns a₁) (h₂ : newAccount mc s₂ i₂ t₂ = .returns a₂) :
    a₁.publicAddress = a₂.publicAddress ↔ t₁ = t₂ ∧ s₁ = s₂ ∧ i₁ = i₂ := by
  refine ⟨fun heq => ?_, ?_⟩
  · obtain ⟨_, hprivate₁, hpublic₁, hlen₁, hadr₁⟩ := newAccount_returns mc h₁
    obtain ⟨_, hprivate₂, hpublic₂, hlen₂, hadr₂⟩ := newAccount_returns mc h₂
    -- The address has the prefix and the public key.
    obtain ⟨hp, hpublic⟩ := keyAddress_injective mc hlen₁ hlen₂ hadr₁ (heq ▸ hadr₂)
    rw [newAccount_accountPrefix mc h₁, newAccount_accountPrefix mc h₂] at hp
    -- The public key goes back to the private key, and that to the seed and the index.
    rw [hpublic₁, hpublic₂] at hpublic
    have hprivate := hkey (.inl rfl) (.inr rfl) hpublic
    rw [hprivate₁, hprivate₂] at hprivate
    have hmessage := hhash (.inl rfl) (.inr rfl) hprivate
    exact ⟨accountPrefix_inj hp, seedWithIndex_inj.1 hmessage⟩
  · rintro ⟨rfl, rfl, rfl⟩
    rw [Outcome.returns.inj (h₁.symm.trans h₂)]

/-- Reversing keys tells them apart. -/
theorem Monocypher.reversing_injOn :
    Set.InjOn Monocypher.reversing.crypto_sign_public_key {k | k.length = 32} := by
  have hreverse : ∀ k : Bytes, k.length = 32 →
      Monocypher.reversing.crypto_sign_public_key k = k.reverse := fun k hk =>
    List.take_left' (by rw [List.length_reverse, hk])
  intro k hk k' hk' h
  rw [hreverse k hk, hreverse k' hk'] at h
  exact List.reverse_injective h

theorem length_privateKey {seed : Bytes} {index : UInt32} {type : NanoType} {account : NanoAccount}
    (h : newAccount mc seed index type = .returns account) : account.privateKey.length = 32 := by
  obtain ⟨_, hprivate, _⟩ := newAccount_returns mc h
  rw [hprivate]
  exact mc.length_blake2b 32 (by decide) _

/-- The first two accounts of a seed have different addresses. -/
theorem publicAddress_ne_next : ∃ a₁ a₂ : NanoAccount,
    newAccount .reversing (List.replicate 32 0) 0 .nano = .returns a₁ ∧
    newAccount .reversing (List.replicate 32 0) 1 .nano = .returns a₂ ∧
    a₁.publicAddress ≠ a₂.publicAddress := by
  obtain ⟨a₂, h₂, _⟩ := newAccount_eq .reversing (List.replicate 32 0) 1 .nano
  refine ⟨zeroAccount, a₂, newAccount_zero, h₂, fun heq => ?_⟩
  have hhash : Set.InjOn (Monocypher.reversing.crypto_blake2b_general 32)
      {List.replicate 32 0 ++ indexBytes 0, List.replicate 32 0 ++ indexBytes 1} :=
    Set.injOn_pair.2 fun h => absurd h (by decide)
  have hkey : Set.InjOn Monocypher.reversing.crypto_sign_public_key
      {zeroAccount.privateKey, a₂.privateKey} :=
    Monocypher.reversing_injOn.mono (Set.insert_subset (length_privateKey _ newAccount_zero)
      (Set.singleton_subset_iff.2 (length_privateKey _ h₂)))
  obtain ⟨_, _, hindex⟩ := (publicAddress_eq_iff hhash hkey newAccount_zero h₂).1 heq
  exact absurd hindex (by decide)

end NanoSwift
