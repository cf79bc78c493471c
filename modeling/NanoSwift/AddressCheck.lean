import NanoSwift.Address

/-!
# The address checker

The checker (`checkIfAddressIsValid`) matches the whole address with a regular
expression (`addressRegex`), on scalars, and cuts it on characters, as
`splitAddress` does.

Foundation's `$` also matches before a line terminator at the end of the input;
both readings of it are modelled (`EndAnchor`). Under either, exactly the
addresses of keys are valid (`checkIfAddressIsValid_iff`): an address followed by
a line terminator traps, as its key part is too long.
-/

namespace NanoSwift

/-! ## The regular expression -/

/-- What `$` matches. -/
inductive EndAnchor
  /-- The end of the input only. -/
  | endOfInput
  /-- The end of the input, or a line terminator before it. -/
  | finalTerminator
  deriving DecidableEq

/-- Whether `$` matches where the rest of the input is `rest`. -/
def EndAnchor.matches (anchor : EndAnchor) (rest : List Char) : Bool :=
  match anchor with
  | endOfInput => rest = []
  | finalTerminator => rest = [] || rest = ['\r', '\n'] || lineTerminators.any fun c => rest = [c]

/-- The scalars of the alphabet. -/
def alphabetScalars : List Char := "13456789abcdefghijkmnopqrstuwxyz".toList

/-- `_[13]{1}[13456789abcdefghijkmnopqrstuwxyz]{59}$` -/
def addressRegexTail (anchor : EndAnchor) : List Char → Bool
  | '_' :: c :: rest =>
    (c = '1' || c = '3') && (rest.take 59).length = 59 &&
      (rest.take 59).all (fun x => x ∈ alphabetScalars) && anchor.matches (rest.drop 59)
  | _ => false

/-- `^(nano|xrb|ban)_[13]{1}[13456789abcdefghijkmnopqrstuwxyz]{59}$` -/
def addressRegex (anchor : EndAnchor) (s : List Char) : Bool :=
  ["nano".toList, "xrb".toList, "ban".toList].any fun name =>
    name <+: s && addressRegexTail anchor (s.drop name.length)

theorem addressRegexTail_iff {anchor : EndAnchor} {s : List Char} :
    addressRegexTail anchor s = true ↔ ∃ c body rest, s = '_' :: c :: (body ++ rest) ∧
      (c = '1' ∨ c = '3') ∧ body.length = 59 ∧ (∀ x ∈ body, x ∈ alphabetScalars) ∧
      anchor.matches rest = true := by
  refine ⟨fun h => ?_, ?_⟩
  · unfold addressRegexTail at h
    split at h
    · rename_i c rest
      simp only [Bool.and_eq_true, Bool.or_eq_true, decide_eq_true_eq, List.all_eq_true] at h
      obtain ⟨⟨⟨hc, hlen⟩, hbody⟩, hrest⟩ := h
      exact ⟨c, rest.take 59, rest.drop 59, by rw [List.take_append_drop], hc, hlen, hbody, hrest⟩
    · cases h
  · rintro ⟨c, body, rest, rfl, hc, hlen, hbody, hrest⟩
    simp only [addressRegexTail, List.take_left' hlen, List.drop_left' hlen, Bool.and_eq_true,
      Bool.or_eq_true, decide_eq_true_eq, List.all_eq_true]
    exact ⟨⟨⟨hc, hlen⟩, hbody⟩, hrest⟩

theorem matches_mem {anchor : EndAnchor} {rest : List Char} (h : anchor.matches rest = true) :
    (∀ x ∈ rest, x ∈ lineTerminators) ∧ rest.length ≤ 2 := by
  cases anchor with
  | endOfInput =>
    obtain rfl : rest = [] := by simpa [EndAnchor.matches] using h
    simp
  | finalTerminator =>
    simp only [EndAnchor.matches, Bool.or_eq_true, decide_eq_true_eq, List.any_eq_true] at h
    rcases h with (rfl | rfl) | ⟨c, hc, rfl⟩
    · simp
    · simp [lineTerminators]
    · simpa using hc

theorem alphabetScalars_map : alphabetScalars.map .scalar = possibleCharacters := rfl

/-- The scalars of prefixes and of the alphabet are ASCII, and none ends a line. -/
theorem ascii_of_mem {x : Char} (hx : x ∈ alphabetScalars ∨ x ∈ "nanoxrbban_".toList) :
    x.toNat < 128 ∧ x ∉ lineTerminators := by
  have hall : (alphabetScalars ++ "nanoxrbban_".toList).all
      (fun x => x.toNat < 128 && x ∉ lineTerminators) = true := by decide
  simpa using List.all_eq_true.1 hall x (List.mem_append.2 hx)

/-- The names in the expression are the prefixes without their underscore. -/
theorem exists_name_of_rawValue (p : NanoAccountPrefix) :
    ∃ name ∈ ["nano".toList, "xrb".toList, "ban".toList],
      p.rawValue = (name ++ ['_']).map .scalar := by
  cases p
  · exact ⟨"nano".toList, by simp, rfl⟩
  · exact ⟨"xrb".toList, by simp, rfl⟩
  · exact ⟨"ban".toList, by simp, rfl⟩

theorem exists_rawValue_of_name {name : List Char}
    (h : name ∈ ["nano".toList, "xrb".toList, "ban".toList]) :
    name ⊆ "nanoxrbban_".toList ∧
      ∃ p : NanoAccountPrefix, p.rawValue = (name ++ ['_']).map .scalar := by
  simp only [List.mem_cons, List.not_mem_nil, or_false] at h
  rcases h with rfl | rfl | rfl
  · exact ⟨by simp, .nano, rfl⟩
  · exact ⟨by simp, .xrb, rfl⟩
  · exact ⟨by simp, .banano, rfl⟩

/-- The scalars of the alphabet are those of its characters. -/
theorem exists_scalars_of_symbols (is : List (Fin 32)) :
    ∃ body : List Char, is.map symbol = body.map .scalar ∧ ∀ x ∈ body, x ∈ alphabetScalars := by
  induction is with
  | nil => exact ⟨[], rfl, by simp⟩
  | cons i is ih =>
    obtain ⟨x, hx, hix⟩ := List.mem_map.1 (alphabetScalars_map ▸ symbol_mem i)
    obtain ⟨body, hbody, hmem⟩ := ih
    exact ⟨x :: body, by rw [List.map_cons, ← hix, hbody, List.map_cons],
      List.forall_mem_cons.2 ⟨hx, hmem⟩⟩

theorem exists_symbols_of_scalars {body : List Char} (h : ∀ x ∈ body, x ∈ alphabetScalars) :
    ∃ is : List (Fin 32), is.map symbol = body.map .scalar := by
  refine exists_map_symbol fun c hc => ?_
  obtain ⟨x, hx, rfl⟩ := List.mem_map.1 hc
  rw [← alphabetScalars_map]
  exact List.mem_map_of_mem (h x hx)

/-- What the expression matches before the end is ASCII. -/
theorem ascii_of_matched {name body : List Char} {c : Char} (hname : name ⊆ "nanoxrbban_".toList)
    (hc : c = '1' ∨ c = '3') (hbody : ∀ x ∈ body, x ∈ alphabetScalars) :
    ∀ x ∈ name ++ '_' :: c :: body, x.toNat < 128 ∧ x ∉ lineTerminators := by
  intro x hx
  simp only [List.mem_append, List.mem_cons] at hx
  rcases hx with hx | rfl | rfl | hx
  · exact ascii_of_mem (.inr (hname hx))
  · decide
  · rcases hc with rfl | rfl <;> decide
  · exact ascii_of_mem (.inl (hbody x hx))

/-- The strings the expression matches: a prefix, sixty symbols the first of
    which is `1` or `3`, and what `$` matches. -/
theorem addressRegex_iff {anchor : EndAnchor} {a : Str} :
    addressRegex anchor (scalars a) = true ↔
      ∃ (p : NanoAccountPrefix) (i : Fin 32) (is : List (Fin 32)) (t : Str),
        a = p.rawValue ++ (i :: is).map symbol ++ t ∧ (i = 0 ∨ i = 1) ∧ is.length = 59 ∧
          anchor.matches (scalars t) = true := by
  constructor
  · intro h
    simp only [addressRegex, List.any_eq_true, Bool.and_eq_true, decide_eq_true_eq] at h
    obtain ⟨name, hname, ⟨s, hs⟩, htail⟩ := h
    rw [← hs, List.drop_left] at htail
    obtain ⟨c, body, rest, rfl, hc, hlen, hbody, hrest⟩ := addressRegexTail_iff.1 htail
    -- What is matched before the end is ASCII, and so the string has it as characters.
    obtain ⟨hsub, p, hp⟩ := exists_rawValue_of_name hname
    have hscalars : scalars a = (name ++ '_' :: c :: body) ++ rest := by
      rw [← hs]
      simp
    obtain ⟨t, rfl, ht⟩ := eq_map_scalar_append hscalars (ascii_of_matched hsub hc hbody)
      (matches_mem hrest).1
    -- The characters are those of a prefix and symbols.
    obtain ⟨is, his⟩ := exists_symbols_of_scalars hbody
    obtain ⟨i, hi, hci⟩ : ∃ i : Fin 32, (i = 0 ∨ i = 1) ∧ symbol i = .scalar c := by
      rcases hc with rfl | rfl
      · exact ⟨0, .inl rfl, rfl⟩
      · exact ⟨1, .inr rfl, rfl⟩
    refine ⟨p, i, is, t, ?_, hi, ?_, ht ▸ hrest⟩
    · rw [List.map_cons, hci, his, hp]
      simp
    · have := congrArg List.length his
      rwa [List.length_map, List.length_map, hlen] at this
  · rintro ⟨p, i, is, t, rfl, hi, hlen, ht⟩
    obtain ⟨body, hbody, hmem⟩ := exists_scalars_of_symbols is
    obtain ⟨name, hname, hp⟩ := exists_name_of_rawValue p
    obtain ⟨c, hc, hic⟩ : ∃ c, (c = '1' ∨ c = '3') ∧ symbol i = .scalar c :=
      ((symbol_eq_one_or_three i).2 hi).elim (fun h => ⟨_, .inl rfl, h⟩) fun h => ⟨_, .inr rfl, h⟩
    have hscalars : scalars (p.rawValue ++ (i :: is).map symbol ++ t) =
        name ++ '_' :: c :: (body ++ scalars t) := by
      rw [List.map_cons, hic, hbody, hp, scalars_append, scalars_append, scalars_map_scalar,
        ← List.map_cons, scalars_map_scalar]
      simp
    rw [hscalars]
    simp only [addressRegex, List.any_eq_true, Bool.and_eq_true, decide_eq_true_eq]
    refine ⟨name, hname, List.prefix_append _ _, ?_⟩
    rw [List.drop_left]
    refine addressRegexTail_iff.2 ⟨c, body, scalars t, rfl, hc, ?_, hmem, ht⟩
    have := congrArg List.length hbody
    rwa [List.length_map, List.length_map, hlen, eq_comm] at this

/-! ## The checker -/

/-- What the address checker says. -/
inductive AddressCheckResult
  | valid
  | invalidLength
  | invalidEncoding
  | invalidChecksum
  | invalidPrefix
  | invalidOther
  deriving DecidableEq

variable (mc : Monocypher) (anchor : EndAnchor)

/-- Checks an address. -/
def checkIfAddressIsValid (address : Str) : Outcome Never AddressCheckResult := do
  match splitAddress address with
  | none => return .invalidPrefix
  | some (_, encodedPublicKey, expectedChecksum) =>
    if addressRegex anchor (scalars address) then
      match ← decodePublicKey encodedPublicKey with
      | none => return .invalidEncoding
      | some publicKey =>
        let publicKeyBytes := keyBytes publicKey
        let checksum := createChecksum mc publicKeyBytes
        if some expectedChecksum ≠ checksum then return .invalidChecksum
        else return .valid
    else if encodedPublicKey.head? ≠ some (.scalar '1') ∧
        encodedPublicKey.head? ≠ some (.scalar '3') then
      return .invalidEncoding
    else if encodedPublicKey.length + expectedChecksum.length ≠ 60 then return .invalidLength
    else return .invalidOther

/-- A matching address without a line terminator is decoded, and its checksum decides. -/
theorem checkIfAddressIsValid_symbols (p : NanoAccountPrefix) {is cs : List (Fin 32)} {k : Bytes}
    (hk : KeySymbols is k) (hcs : cs.length = 8) :
    checkIfAddressIsValid mc anchor (p.rawValue ++ is.map symbol ++ cs.map symbol) =
      .returns
        (if some (cs.map symbol) = createChecksum mc k then .valid else .invalidChecksum) := by
  have hregex :
      addressRegex anchor (scalars (p.rawValue ++ is.map symbol ++ cs.map symbol)) = true := by
    obtain ⟨i, is', rfl, hi⟩ := hk.head
    have hlen : is'.length = 51 := by simpa using hk.length
    refine addressRegex_iff.2 ⟨p, i, is' ++ cs, [], by simp, hi, by simp [hlen, hcs], ?_⟩
    cases anchor <;> rfl
  rw [checkIfAddressIsValid, splitAddress_rawValue p (by rwa [List.length_map])]
  simp only [hregex, if_true, decodePublicKey, hk.decode, Outcome.returns_bind, keyBytes_write]
  by_cases h : some (cs.map symbol) = createChecksum mc k <;> simp [h]

/-- Before a line terminator, a matching address has a key part that is too long. -/
theorem checkIfAddressIsValid_terminator (p : NanoAccountPrefix) {is : List (Fin 32)} {t : Str}
    (hlen : is.length = 60) (ht : t ≠ []) (ht8 : t.length ≤ 8)
    (hregex : addressRegex anchor (scalars (p.rawValue ++ is.map symbol ++ t)) = true) :
    checkIfAddressIsValid mc anchor (p.rawValue ++ is.map symbol ++ t) = .traps .negativeCount := by
  have hpos : 0 < t.length := List.length_pos_of_ne_nil ht
  have hsymbols : is.map symbol =
      (is.take (52 + t.length)).map symbol ++ (is.drop (52 + t.length)).map symbol := by
    rw [← List.map_append, List.take_append_drop]
  -- The terminator counts for the checksum, and takes its place from the key.
  have hcut : p.rawValue ++ is.map symbol ++ t =
      p.rawValue ++ (is.take (52 + t.length)).map symbol ++
        ((is.drop (52 + t.length)).map symbol ++ t) := by
    rw [hsymbols]
    simp only [List.append_assoc]
  have hlong : ¬(is.take (52 + t.length)).length ≤ 52 := by
    rw [List.length_take, hlen]
    omega
  rw [hcut] at hregex ⊢
  rw [checkIfAddressIsValid, splitAddress_rawValue p (by
    rw [List.length_append, List.length_map, List.length_drop, hlen]; omega)]
  simp only [hregex, if_true, decodePublicKey, base32NanoDecode_map_symbol, if_neg hlong,
    Outcome.traps_bind]

theorem length_le_scalars (s : Str) : s.length ≤ (scalars s).length := by
  induction s with
  | nil => exact Nat.le_refl _
  | cons c s ih =>
    have hc : 0 < c.scalars.length := by
      cases c with
      | scalar c => exact Nat.one_pos
      | crlf => exact Nat.two_pos
      | cluster cs hcs =>
        obtain ⟨⟨x, hx, _⟩, _⟩ := hcs
        exact List.length_pos_of_mem hx
    rw [scalars, List.flatMap_cons, List.length_append, ← scalars, List.length_cons]
    omega

/-- What the expression does not match is not valid. -/
theorem checkIfAddressIsValid_mismatch {a : Str} (hno : ¬addressRegex anchor (scalars a) = true) :
    ∃ r, r ≠ .valid ∧ checkIfAddressIsValid mc anchor a = .returns r := by
  unfold checkIfAddressIsValid
  split
  · exact ⟨.invalidPrefix, by decide, rfl⟩
  · rw [if_neg hno]
    split_ifs
    · exact ⟨.invalidEncoding, by decide, rfl⟩
    · exact ⟨.invalidLength, by decide, rfl⟩
    · exact ⟨.invalidOther, by decide, rfl⟩

/-- How the checker ends: without a match, with a key and a checksum that is
    compared, or in a trap where a match is followed by a line terminator. -/
theorem checkIfAddressIsValid_cases (a : Str) :
    (∃ r, r ≠ .valid ∧ checkIfAddressIsValid mc anchor a = .returns r) ∨
    (∃ (p : NanoAccountPrefix) (is cs : List (Fin 32)) (k : Bytes),
      a = p.rawValue ++ is.map symbol ++ cs.map symbol ∧ KeySymbols is k ∧
      checkIfAddressIsValid mc anchor a = .returns
        (if some (cs.map symbol) = createChecksum mc k then .valid else .invalidChecksum)) ∨
    ∃ (p : NanoAccountPrefix) (i : Fin 32) (is : List (Fin 32)) (t : Str),
      a = p.rawValue ++ (i :: is).map symbol ++ t ∧ (i = 0 ∨ i = 1) ∧ is.length = 59 ∧
      t ≠ [] ∧ anchor.matches (scalars t) = true ∧
      checkIfAddressIsValid mc anchor a = .traps .negativeCount := by
  by_cases hregex : addressRegex anchor (scalars a) = true
  · obtain ⟨p, i, is, t, rfl, hi, hlen, ht⟩ := addressRegex_iff.1 hregex
    by_cases hnil : t = []
    · -- Sixty symbols: those of a key and those of a checksum.
      have hkey : (is.take 51).length = 51 := by
        rw [List.length_take, hlen]
        rfl
      obtain ⟨k, hk⟩ := exists_key hkey hi
      have hcs : (is.drop 51).length = 8 := by rw [List.length_drop, hlen]
      have hcut : p.rawValue ++ (i :: is).map symbol ++ t =
          p.rawValue ++ (i :: is.take 51).map symbol ++ (is.drop 51).map symbol := by
        rw [hnil, List.append_nil, List.append_assoc, ← List.map_append, List.cons_append,
          List.take_append_drop]
      refine .inr (.inl ⟨p, _, _, k, hcut, hk, ?_⟩)
      rw [hcut, checkIfAddressIsValid_symbols mc anchor p hk hcs]
    · -- Sixty symbols and a terminator: the call traps.
      have ht8 : t.length ≤ 8 :=
        (length_le_scalars t).trans ((matches_mem ht).2.trans (by decide))
      exact .inr (.inr ⟨p, i, is, t, rfl, hi, hlen, hnil, ht,
        checkIfAddressIsValid_terminator mc anchor p (by simp [hlen]) hnil ht8 hregex⟩)
  · exact .inl (checkIfAddressIsValid_mismatch mc anchor hregex)

/-- Exactly the addresses of keys are valid. -/
theorem valid_iff_keyAddress {a : Str} :
    checkIfAddressIsValid mc anchor a = .returns .valid ↔
      ∃ (p : NanoAccountPrefix) (k : Bytes), k.length = 32 ∧ keyAddress mc p k = some a := by
  refine ⟨fun h => ?_, ?_⟩
  · rcases checkIfAddressIsValid_cases mc anchor a with
      ⟨r, hr, heq⟩ | ⟨p, is, cs, k, rfl, hk, heq⟩ | ⟨p, i, is, t, _, _, _, _, _, heq⟩
    · exact absurd (Outcome.returns.inj (heq.symm.trans h)) hr
    · rw [heq] at h
      split_ifs at h with hsum
      · refine ⟨p, k, hk.length_key, ?_⟩
        simp [keyAddress, encodePublicKey, hk.encode, ← hsum]
      · cases h
    · rw [heq] at h
      cases h
  · rintro ⟨p, k, hk, hadr⟩
    obtain ⟨is, cs, his, _, hcs, hsum, heq⟩ := keyAddress_eq mc p hk
    obtain rfl := Option.some.inj (heq.symm.trans hadr)
    rw [checkIfAddressIsValid_symbols mc anchor p his hcs, hsum, if_pos rfl]

/-- The prefix and the key of an address are determined by it. -/
theorem keyAddress_injective {p p' : NanoAccountPrefix} {k k' : Bytes} {a : Str}
    (hk : k.length = 32) (hk' : k'.length = 32) (h : keyAddress mc p k = some a)
    (h' : keyAddress mc p' k' = some a) : p = p' ∧ k = k' := by
  obtain ⟨is, cs, his, _, hcs, _, heq⟩ := keyAddress_eq mc p hk
  obtain ⟨is', cs', his', _, hcs', _, heq'⟩ := keyAddress_eq mc p' hk'
  obtain rfl := Option.some.inj (heq.symm.trans h)
  -- Both are what splitting the address gives.
  have hs : splitAddress (p.rawValue ++ is.map symbol ++ cs.map symbol) =
      some (p, is.map symbol, cs.map symbol) := splitAddress_rawValue p (by simpa using hcs)
  rw [Option.some.inj (h'.symm.trans heq'),
    splitAddress_rawValue p' (by simpa using hcs')] at hs
  simp only [Option.some.injEq, Prod.mk.injEq] at hs
  obtain ⟨rfl, hkey, _⟩ := hs
  obtain rfl := List.map_injective_iff.2 symbol_injective hkey
  exact ⟨rfl, his.key_unique his'⟩

/-- The address checker accepts exactly the addresses of 32-byte keys, the prefix
    and the key of which are unique; the addresses of created accounts are valid. -/
theorem checkIfAddressIsValid_iff :
    (∀ a : Str, checkIfAddressIsValid mc anchor a = .returns .valid ↔
      ∃ (p : NanoAccountPrefix) (k : Bytes), k.length = 32 ∧ keyAddress mc p k = some a) ∧
    (∀ (a : Str) (p p' : NanoAccountPrefix) (k k' : Bytes), k.length = 32 → k'.length = 32 →
      keyAddress mc p k = some a → keyAddress mc p' k' = some a → p = p' ∧ k = k') ∧
    (∀ (seed : Bytes) (index : UInt32) (type : NanoType), ∃ account,
      newAccount mc seed index type = .returns account ∧
        checkIfAddressIsValid mc anchor account.publicAddress = .returns .valid) := by
  refine ⟨fun a => valid_iff_keyAddress mc anchor, ?_, ?_⟩
  · intro a p p' k k' hk hk' h h'
    exact keyAddress_injective mc hk hk' h h'
  · intro seed index type
    obtain ⟨account, hnew, _, _, _, _, hlen, _, hadr⟩ := newAccount_eq mc seed index type
    exact ⟨account, hnew, (valid_iff_keyAddress mc anchor).2 ⟨_, _, hlen, hadr⟩⟩

end NanoSwift
