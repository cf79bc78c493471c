import NanoSwift.Block
import NanoSwift.Lib.Cascade

/-!
# The checks of hashing

What hashing a block looks at before it is done: `makeHex` looks at lengths only
(`Accepted`, `Trapped`, `makeHex_cases`), and `hashStateBlock` is a cascade of
such checks (`hashStateBlock_ends`).

* Hashing returns exactly if it does not come to a field that traps
  (`hashStateBlock_returns_iff`), and a block is hashed exactly if all its fields
  pass (`unhashed_eq_returns`).
* It is hashed as its fields demand, and messages tell blocks apart, exactly if
  no check misses a field, and no two balances are printed with the same digits
  (`hashStateBlock_fields_iff`).
-/

namespace NanoSwift

/-! ## What hashing accepts -/

/-- What `makeHex` takes for a key: any 64 characters, or an address whose key
    part is made of at most 52 characters of the alphabet. -/
def Accepted (s : Str) : Prop :=
  (IsPrefixed s ∧ ∃ p key checksum, Splits s p key checksum ∧ InAlphabet key ∧ key.length ≤ 52) ∨
    (¬IsPrefixed s ∧ s.length = 64)

/-- Where `makeHex` traps: at what starts like an address but cannot be split, or
    has a key part of more than 52 characters of the alphabet. -/
def Trapped (s : Str) : Prop :=
  IsPrefixed s ∧ ∀ p key checksum, Splits s p key checksum → InAlphabet key ∧ 52 < key.length

theorem Splits.key_unique {s : Str} {p p' : NanoAccountPrefix} {key key' checksum checksum' : Str}
    (h : Splits s p key checksum) (h' : Splits s p' key' checksum') : key = key' := by
  have heq := (splitAddress_of_splits h).symm.trans (splitAddress_of_splits h')
  simp only [Option.some.injEq, Prod.mk.injEq] at heq
  exact heq.2.1

theorem Accepted.not_trapped {s : Str} (h : Accepted s) : ¬Trapped s := by
  rintro ⟨hpre, hall⟩
  rcases h with ⟨_, p, key, checksum, hsplits, _, hle⟩ | ⟨hno, _⟩
  · exact absurd (hall p key checksum hsplits).2 (not_lt.2 hle)
  · exact hno hpre

/-- How `makeHex` ends. -/
theorem makeHex_cases (s : Str) :
    (Accepted s ∧ ∃ hex, makeHex s = .returns (some hex)) ∨
    (¬Accepted s ∧ ¬Trapped s ∧ makeHex s = .returns none) ∨
    (Trapped s ∧ ∃ t, makeHex s = .traps t) := by
  by_cases hpre : IsPrefixed s
  · rcases hsplit : splitAddress s with _ | ⟨p, key, checksum⟩
    · refine .inr (.inr ⟨⟨hpre, fun p key checksum h => ?_⟩, .unwrappedNil,
        by simp [makeHex, hpre, hsplit]⟩)
      rw [splitAddress_of_splits h] at hsplit
      cases hsplit
    · have hs := splitAddress_eq_some.1 hsplit
      rcases base32NanoDecode_cases key with
        ⟨hno, hdec⟩ | ⟨hin, hlong, hdec⟩ | ⟨hin, hle, _, _, hdec⟩
      · refine .inr (.inl ⟨?_, ?_, by simp [makeHex, hpre, hsplit, decodePublicKey, hdec]⟩)
        · rintro (⟨_, p', key', checksum', hs', hin, _⟩ | ⟨hnot, _⟩)
          · exact hno (hs.key_unique hs' ▸ hin)
          · exact hnot hpre
        · exact fun h => hno (h.2 p key checksum hs).1
      · refine .inr (.inr ⟨⟨hpre, fun p' key' checksum' hs' => ?_⟩, .negativeCount,
          by simp [makeHex, hpre, hsplit, decodePublicKey, hdec]⟩)
        exact hs.key_unique hs' ▸ ⟨hin, hlong⟩
      · obtain ⟨_, k, hk, hhex⟩ := exists_keyHex hdec
        have hlen : (hexString k).length = 64 := by rw [length_hexString, hk]
        refine .inl ⟨.inl ⟨hpre, p, key, checksum, hs, hin, hle⟩, hexString k, ?_⟩
        simp [makeHex, hpre, hsplit, decodePublicKey, hdec, hhex, hlen]
  · by_cases hlen : s.length = 64
    · exact .inl ⟨.inr ⟨hpre, hlen⟩, s, by simp [makeHex, hpre, hlen]⟩
    · refine .inr (.inl ⟨?_, fun h => hpre h.1, by simp [makeHex, hpre, hlen]⟩)
      rintro (⟨h, _⟩ | ⟨_, h⟩)
      · exact hpre h
      · exact hlen h

/-- What is accepted is hashed. -/
theorem Accepted.makeHex {s : Str} (h : Accepted s) : ∃ hex, makeHex s = .returns (some hex) := by
  rcases makeHex_cases s with ⟨_, hhex⟩ | ⟨hno, _⟩ | ⟨htrap, _⟩
  · exact hhex
  · exact absurd h hno
  · exact absurd htrap h.not_trapped

theorem IsKeyText.accepted {s : Str} (h : IsKeyText s) : Accepted s := by
  obtain ⟨k, hk⟩ := isKeyText_iff.1 h
  obtain ⟨hex, hhex, _⟩ := makeHex_of_denotes hk
  rcases makeHex_cases s with ⟨hacc, _⟩ | ⟨_, _, hno⟩ | ⟨_, t, ht⟩
  · exact hacc
  · rw [hhex] at hno
    cases hno
  · rw [hhex] at ht
    cases ht

variable (mc : Monocypher) (l : Locale)

/-! ## Hashing as a cascade of checks -/

/-- The check of a field for a key. -/
def keyCheck (s : Str) (verdict : HashStateBlockResult) : Check HashStateBlockResult where
  required := IsKeyText s
  passes := Accepted s
  traps := Trapped s
  verdict := verdict
  passes_of_required := IsKeyText.accepted
  not_traps := Accepted.not_trapped

/-- The check of the field for the previous block. -/
def previousCheck (s : Str) : Check HashStateBlockResult where
  required := IsPreviousText s
  passes := s.length = 64 ∨ s = text "0"
  traps := False
  verdict := .invalidPrevious
  passes_of_required h := h.elim .inr fun h => .inl h.1
  not_traps _ := id

/-- The checks of the fields of a block, in order. -/
def fieldChecks (block : NanoStateBlock) : List (Check HashStateBlockResult) :=
  [keyCheck block.account .invalidAccount, previousCheck block.previous,
    keyCheck block.representative .invalidRepresentative, keyCheck block.link .invalidLink]

/-- A guard on a field for a key is its check, and goes on with what the field is hashed by. -/
theorem keyCheck_ends {s : Str} {verdict : HashStateBlockResult}
    {cs : List (Check HashStateBlockResult)}
    {f : Str → Outcome HashStateBlockResult HashStateBlockResult}
    (h : ∀ hex, ∃ hash, Cascade.Ends (.returns (.success hash)) cs (f hex).settle) :
    ∃ hash, Cascade.Ends (.returns (.success hash)) (keyCheck s verdict :: cs)
      (do f (← Outcome.guardLet (← Outcome.lift (makeHex s)) verdict)).settle := by
  rcases makeHex_cases s with ⟨hacc, hex, heq⟩ | ⟨hacc, hnt, heq⟩ | ⟨htrap, t, heq⟩
  · obtain ⟨hash, hends⟩ := h hex
    rw [heq]
    exact ⟨hash, .pass hacc hends⟩
  · rw [heq]
    exact ⟨[], .refuse hacc hnt⟩
  · rw [heq]
    exact ⟨[], .trap htrap⟩

/-- Hashing is a cascade of the checks of the fields, and then succeeds. -/
theorem hashStateBlock_ends (block : NanoStateBlock) :
    ∃ hash, Cascade.Ends (.returns (.success hash)) (fieldChecks block)
      (hashStateBlock mc l block) := by
  simp only [hashStateBlock, unhashed, bind_assoc, Outcome.pure_eq, Outcome.returns_bind]
  refine keyCheck_ends fun hexAccount => ?_
  by_cases hprev : block.previous.length = 64 ∨ block.previous = text "0"
  · simp only [Outcome.guardElse_pos hprev, Outcome.returns_bind]
    refine Exists.imp (fun hash => .pass hprev) ?_
    exact keyCheck_ends fun hexRep => keyCheck_ends fun hexLink => ⟨_, .done⟩
  · rw [Outcome.guardElse_neg hprev]
    exact ⟨[], .refuse hprev not_false⟩

/-- Hashing returns unless it comes to a field for a key that traps: the account, or
    the representative after an account and a previous block that pass, or the link
    after a representative that passes, too. -/
theorem hashStateBlock_returns_iff (block : NanoStateBlock) :
    (∃ r, hashStateBlock mc l block = .returns r) ↔
      ¬(Trapped block.account ∨
        (Accepted block.account ∧ (block.previous.length = 64 ∨ block.previous = text "0") ∧
          (Trapped block.representative ∨
            (Accepted block.representative ∧ Trapped block.link)))) := by
  obtain ⟨hash, hends⟩ := hashStateBlock_ends mc l block
  rw [hends.exists_returns_iff]
  -- The check of the previous block never traps.
  simp only [fieldChecks, keyCheck, previousCheck, Cascade.ReachesTrap, and_false, or_false,
    false_or]

/-- The four letters of a prefix cannot be split, and a key part of 53 characters
    cannot be decoded. -/
theorem hashStateBlock_traps :
    hashStateBlock .reversing .posix
      { previous := text "0"
        account := text "nano"
        representative := List.replicate 64 (.scalar '0')
        balance := ⟨0⟩
        link := List.replicate 64 (.scalar '0') } = .traps .unwrappedNil ∧
    hashStateBlock .reversing .posix
      { previous := text "0"
        account := text "nano_" ++ List.replicate 61 (.scalar '1')
        representative := List.replicate 64 (.scalar '0')
        balance := ⟨0⟩
        link := List.replicate 64 (.scalar '0') } = .traps .negativeCount := by
  decide +kernel

theorem success_ne_verdict (block : NanoStateBlock) (hash : Bytes) :
    ∀ c ∈ fieldChecks block, .success hash ≠ c.verdict := by
  simp [fieldChecks, keyCheck, previousCheck]

/-- The bytes a field for a key is hashed by, none if it is not accepted. -/
def fieldBytes (s : Str) : Bytes :=
  match makeHex s with
  | .returns (some hex) => padToLength 32 (hexToBytes hex)
  | _ => []

/-- The message of a block whose fields pass their checks. -/
def messageOf (block : NanoStateBlock) : Bytes :=
  padToLength 32 (hexToBytes (text "6")) ++ fieldBytes block.account ++
    padToLength 32 (hexToBytes block.previous) ++ fieldBytes block.representative ++
    padToLength 16 (block.balance.rawBytes l) ++ fieldBytes block.link

/-- Exactly the blocks whose fields pass their checks are hashed, by their message. -/
theorem unhashed_eq_returns {block : NanoStateBlock} {message : Bytes} :
    unhashed l block = .returns message ↔
      (∀ c ∈ fieldChecks block, c.passes) ∧ message = messageOf l block := by
  have hpasses : (∀ c ∈ fieldChecks block, c.passes) →
      unhashed l block = .returns (messageOf l block) := by
    intro h
    simp only [fieldChecks, List.forall_mem_cons] at h
    obtain ⟨haccount, hprev, hrepresentative, hlink, _⟩ := h
    obtain ⟨hexAccount, hacc⟩ := Accepted.makeHex haccount
    obtain ⟨hexRep, hrep⟩ := Accepted.makeHex hrepresentative
    obtain ⟨hexLink, hli⟩ := Accepted.makeHex hlink
    have hprev : block.previous.length = 64 ∨ block.previous = text "0" := hprev
    simp only [unhashed, hacc, hrep, hli, Outcome.lift_returns, Outcome.returns_bind,
      Outcome.guardLet_some, Outcome.guardElse_pos hprev, Outcome.pure_eq, messageOf, fieldBytes]
  constructor
  · intro h
    obtain ⟨_, hends⟩ := hashStateBlock_ends .reversing l block
    rw [hashStateBlock_of_unhashed _ l h] at hends
    have hpass := hends.passes (success_ne_verdict block _)
    exact ⟨hpass, Outcome.returns.inj (h.symm.trans (hpasses hpass))⟩
  · rintro ⟨h, rfl⟩
    exact hpasses h

theorem unhashed_returns_iff {block : NanoStateBlock} :
    (∃ message, unhashed l block = .returns message) ↔ ∀ c ∈ fieldChecks block, c.passes := by
  simp only [unhashed_eq_returns, exists_and_left, exists_eq, and_true]

/-- Hashing a block succeeds when there is a message, with its hash. -/
theorem hashStateBlock_eq_success {block : NanoStateBlock} {hash : Bytes} :
    hashStateBlock mc l block = .returns (.success hash) ↔
      ∃ message, unhashed l block = .returns message ∧
        hash = mc.crypto_blake2b_general 32 message := by
  constructor
  · intro h
    obtain ⟨_, hends⟩ := hashStateBlock_ends mc l block
    rw [h] at hends
    obtain ⟨message, hmessage⟩ :=
      (unhashed_returns_iff l).2 (hends.passes (success_ne_verdict block _))
    rw [hashStateBlock_of_unhashed mc l hmessage] at h
    exact ⟨message, hmessage, (HashStateBlockResult.success.inj (Outcome.returns.inj h)).symm⟩
  · rintro ⟨message, hmessage, rfl⟩
    exact hashStateBlock_of_unhashed mc l hmessage

/-! ## What a success says -/

/-- Whenever hashing the block returns, it succeeds if all fields are as they
    should be, and else names the first that is not. -/
def HashedRight (block : NanoStateBlock) : Prop :=
  ∀ r, hashStateBlock mc l block = .returns r →
    Cascade.Expected (fun r => ∃ hash, r = .success hash) (fieldChecks block) r

/-- The texts of two blocks name the same keys and the same block. -/
def SameTexts (x y : NanoStateBlock) : Prop :=
  (∃ k, Denotes x.account k ∧ Denotes y.account k) ∧
  (∃ hash, DenotesPrevious x.previous hash ∧ DenotesPrevious y.previous hash) ∧
  (∃ k, Denotes x.representative k ∧ Denotes y.representative k) ∧
  (∃ k, Denotes x.link k ∧ Denotes y.link k)

theorem hashedRight_iff (block : NanoStateBlock) :
    HashedRight mc l block ↔ ¬Cascade.Misses (fieldChecks block) := by
  obtain ⟨hash, hends⟩ := hashStateBlock_ends mc l block
  refine Cascade.expected_iff_not_misses hends ⟨hash, rfl⟩ ?_ ?_
  · rintro c hc ⟨hash', h⟩
    exact success_ne_verdict block hash' c hc h.symm
  · simp [fieldChecks, keyCheck, previousCheck]

/-- Messages in a row determine their parts, only one of which is not of a known length. -/
theorem layout_injective {p a₁ b₁ c₁ d₁ e₁ a₂ b₂ c₂ d₂ e₂ : Bytes} (ha : a₁.length = a₂.length)
    (hb : b₁.length = b₂.length) (hc : c₁.length = c₂.length) (he : e₁.length = e₂.length)
    (h : p ++ a₁ ++ b₁ ++ c₁ ++ d₁ ++ e₁ = p ++ a₂ ++ b₂ ++ c₂ ++ d₂ ++ e₂) :
    a₁ = a₂ ∧ b₁ = b₂ ∧ c₁ = c₂ ∧ d₁ = d₂ ∧ e₁ = e₂ := by
  obtain ⟨hpd, hee⟩ := List.append_inj' h he
  simp only [List.append_assoc, List.append_cancel_left_eq] at hpd
  obtain ⟨haa, hbd⟩ := List.append_inj hpd ha
  obtain ⟨hbb, hcd⟩ := List.append_inj hbd hb
  obtain ⟨hcc, hdd⟩ := List.append_inj hcd hc
  exact ⟨haa, hbb, hcc, hdd, hee⟩

/-- Where nothing is missed, the texts of a block that is hashed name keys. -/
theorem denotes_of_unhashed {block : NanoStateBlock} {message : Bytes}
    (hm : ¬Cascade.Misses (fieldChecks block)) (h : unhashed l block = .returns message) :
    (∃ k, Denotes block.account k) ∧ (∃ hash, DenotesPrevious block.previous hash) ∧
      (∃ k, Denotes block.representative k) ∧ (∃ k, Denotes block.link k) := by
  have hreq := Cascade.required_of_not_misses hm ((unhashed_returns_iff l).1 ⟨message, h⟩)
  simp only [fieldChecks, List.forall_mem_cons] at hreq
  obtain ⟨hacc, hprev, hrep, hlink, _⟩ := hreq
  exact ⟨isKeyText_iff.1 hacc, isPreviousText_iff.1 hprev, isKeyText_iff.1 hrep,
    isKeyText_iff.1 hlink⟩

/-- Two blocks are hashed as their fields demand, and their messages tell them
    apart, if and only if no check misses a field of theirs and no two balances
    of theirs are printed with the digits of one number. -/
theorem hashStateBlock_fields_iff (x y : NanoStateBlock) :
    (HashedRight mc l x ∧ HashedRight mc l y ∧
      ∀ message, unhashed l x = .returns message → unhashed l y = .returns message →
        SameTexts x y ∧ x.balance = y.balance) ↔
    (¬Cascade.Misses (fieldChecks x) ∧ ¬Cascade.Misses (fieldChecks y) ∧
      (SameTexts x y → x.balance.printedValue l = y.balance.printedValue l →
        x.balance = y.balance)) := by
  rw [hashedRight_iff, hashedRight_iff]
  refine and_congr_right fun hx => and_congr_right fun hy => ⟨fun h => ?_, fun h => ?_⟩
  · -- Two blocks that name the same have the same message, as their balances are
    -- hashed by what is printed of them.
    rintro ⟨⟨_, hax, hay⟩, ⟨_, hpx, hpy⟩, ⟨_, hrx, hry⟩, ⟨_, hlx, hly⟩⟩ hprinted
    have hmx := unhashed_of_denotes l hax hpx hrx hlx
    have hmy := unhashed_of_denotes l hay hpy hry hly
    rw [padToLength_rawBytes, hprinted] at hmx
    rw [padToLength_rawBytes] at hmy
    exact (h _ hmx hmy).2
  · -- The message determines the keys, and of the balances what is printed.
    intro message hmx hmy
    obtain ⟨⟨ax, hax⟩, ⟨px, hpx⟩, ⟨rx, hrx⟩, ⟨lx, hlx⟩⟩ := denotes_of_unhashed l hx hmx
    obtain ⟨⟨ay, hay⟩, ⟨py, hpy⟩, ⟨ry, hry⟩, ⟨ly, hly⟩⟩ := denotes_of_unhashed l hy hmy
    have heq := (unhashed_of_denotes l hax hpx hrx hlx).symm.trans
      (hmx.trans (hmy.symm.trans (unhashed_of_denotes l hay hpy hry hly)))
    obtain ⟨rfl, rfl, rfl, hbal, rfl⟩ := layout_injective (hax.1.trans hay.1.symm)
      (hpx.1.trans hpy.1.symm) (hrx.1.trans hry.1.symm) (hlx.1.trans hly.1.symm)
      (Outcome.returns.inj heq)
    have hsame : SameTexts x y := ⟨⟨_, hax, hay⟩, ⟨_, hpx, hpy⟩, ⟨_, hrx, hry⟩, ⟨_, hlx, hly⟩⟩
    have hprinted := congrArg bytesValue hbal
    rw [bytesValue_padToLength, bytesValue_padToLength, bytesValue_rawBytes,
      bytesValue_rawBytes] at hprinted
    exact ⟨hsame, h hsame hprinted⟩

/-- Sixty-four letters pass for an account, though they name no key. -/
theorem not_hashedRight_letters :
    ¬HashedRight .reversing .posix
      { previous := text "0"
        account := List.replicate 64 (.scalar 'z')
        representative := List.replicate 64 (.scalar '0')
        balance := ⟨0⟩
        link := List.replicate 64 (.scalar '0') } := by
  rw [hashedRight_iff, not_not]
  have haccount : ¬IsKeyText (List.replicate 64 (.scalar 'z')) := by
    rintro (⟨_, hhex⟩ | ⟨p, key, checksum, heq, _⟩)
    · exact absurd hhex (by decide)
    · have hpre := isPrefixed_rawValue p (key ++ checksum)
      rw [← List.append_assoc, ← heq] at hpre
      exact absurd hpre (by decide)
  have hzero : Accepted (List.replicate 64 (.scalar '0')) := .inr (by decide)
  -- The account is missed, and all other fields pass.
  exact .inr ⟨haccount, .inr (by decide), .inl ⟨.inr rfl, .inl ⟨hzero, .inl ⟨hzero, trivial⟩⟩⟩⟩

end NanoSwift
