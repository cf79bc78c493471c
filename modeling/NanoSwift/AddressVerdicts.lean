import NanoSwift.AddressCheck

/-!
# The verdicts of the address checker

Which verdict the checker gives, in terms of what follows the prefix
(`AddressBody` is what should follow it).

* Where `$` matches before a line terminator, the checker returns unless an
  address is followed by one (`checkIfAddressIsValid_returns_iff`).
* The verdict names the defect unless what follows the prefix has the right length
  and first character and another character is not in the alphabet
  (`verdictRight_iff`): the guard on decoding that is meant for it comes after the
  expression has matched, and never fails.
-/

namespace NanoSwift

variable (mc : Monocypher) (anchor : EndAnchor)

/-! ## What follows the prefix -/

/-- The string starts with one of the characters of a single bit. -/
def StartsKey (s : Str) : Prop := s.head? = some (.scalar '1') ∨ s.head? = some (.scalar '3')

instance (s : Str) : Decidable (StartsKey s) :=
  inferInstanceAs (Decidable (s.head? = some (.scalar '1') ∨ s.head? = some (.scalar '3')))

/-- The string is what should follow the prefix: sixty characters of the alphabet,
    the first of which is `1` or `3`. -/
def AddressBody (b : Str) : Prop := b.length = 60 ∧ InAlphabet b ∧ StartsKey b

theorem addressBody_iff {b : Str} :
    AddressBody b ↔ ∃ (i : Fin 32) (is : List (Fin 32)),
      b = (i :: is).map symbol ∧ (i = 0 ∨ i = 1) ∧ is.length = 59 :=
  exists_cons_map_symbol_iff.symm

/-- The strings the expression matches, in terms of what follows the prefix. -/
theorem addressRegex_iff_body {a : Str} :
    addressRegex anchor (scalars a) = true ↔
      ∃ (p : NanoAccountPrefix) (body t : Str), a = p.rawValue ++ body ++ t ∧ AddressBody body ∧
        anchor.matches (scalars t) = true := by
  rw [addressRegex_iff]
  refine ⟨?_, ?_⟩
  · rintro ⟨p, i, is, t, rfl, hi, hlen, ht⟩
    exact ⟨p, _, t, rfl, addressBody_iff.2 ⟨i, is, rfl, hi, hlen⟩, ht⟩
  · rintro ⟨p, body, t, rfl, hbody, ht⟩
    obtain ⟨i, is, rfl, hi, hlen⟩ := addressBody_iff.1 hbody
    exact ⟨p, i, is, t, rfl, hi, hlen, ht⟩

/-! ## Where the checker returns -/

/-- The address is followed by what `$` matches besides the end. -/
def FollowedByMatch (a : Str) : Prop :=
  ∃ (p : NanoAccountPrefix) (body t : Str), a = p.rawValue ++ body ++ t ∧ AddressBody body ∧
    t ≠ [] ∧ anchor.matches (scalars t) = true

theorem returns_iff_not_followedByMatch {a : Str} :
    (∃ r, checkIfAddressIsValid mc anchor a = .returns r) ↔ ¬FollowedByMatch anchor a := by
  refine ⟨?_, fun hno => ?_⟩
  · rintro ⟨r, hr⟩ ⟨p, body, t, rfl, hbody, hnil, ht⟩
    have hregex := (addressRegex_iff_body anchor).2 ⟨p, body, t, rfl, hbody, ht⟩
    have ht8 : t.length ≤ 8 := (length_le_scalars t).trans ((matches_mem ht).2.trans (by decide))
    obtain ⟨i, is, rfl, _, hlen⟩ := addressBody_iff.1 hbody
    rw [checkIfAddressIsValid_terminator mc anchor p (by simp [hlen]) hnil ht8 hregex] at hr
    cases hr
  · rcases checkIfAddressIsValid_cases mc anchor a with
      ⟨r, _, heq⟩ | ⟨_, _, _, _, _, _, heq⟩ | ⟨p, i, is, t, rfl, hi, hlen, hnil, ht, _⟩
    · exact ⟨r, heq⟩
    · exact ⟨_, heq⟩
    · exact absurd ⟨p, _, t, rfl, addressBody_iff.2 ⟨i, is, rfl, hi, hlen⟩, hnil, ht⟩ hno

/-- Where `$` matches before a final line terminator, the checker returns if and
    only if the string is not what should follow a prefix, after one and followed by
    one line terminator. -/
theorem checkIfAddressIsValid_returns_iff (a : Str) :
    (∃ r, checkIfAddressIsValid mc .finalTerminator a = .returns r) ↔
      ¬∃ (p : NanoAccountPrefix) (body t : Str), a = p.rawValue ++ body ++ t ∧ AddressBody body ∧
        (scalars t = ['\r', '\n'] ∨ ∃ c ∈ lineTerminators, scalars t = [c]) := by
  have hmatches : ∀ t : Str, (t ≠ [] ∧ EndAnchor.finalTerminator.matches (scalars t) = true) ↔
      (scalars t = ['\r', '\n'] ∨ ∃ c ∈ lineTerminators, scalars t = [c]) := by
    intro t
    have hnil : scalars t = [] ↔ t = [] := by
      refine ⟨fun h => List.length_eq_zero_iff.1 ?_, fun h => by rw [h]; rfl⟩
      exact Nat.le_zero.1 ((length_le_scalars t).trans_eq (by rw [h, List.length_nil]))
    simp only [EndAnchor.matches, Bool.or_eq_true, decide_eq_true_eq, List.any_eq_true, or_assoc,
      hnil]
    refine ⟨fun h => h.2.resolve_left h.1, fun h => ⟨fun ht => ?_, .inr h⟩⟩
    rw [hnil.2 ht] at h
    simp at h
  rw [returns_iff_not_followedByMatch, FollowedByMatch]
  simp only [hmatches]

/-- A valid address and a line feed. -/
theorem checkIfAddressIsValid_lineFeed : checkIfAddressIsValid .reversing .finalTerminator
    (text "nano_" ++ List.replicate 60 (.scalar '1') ++ [.scalar '\n']) = .traps .negativeCount := by
  decide +kernel

/-! ## Verdicts -/

/-- The verdict on the prefix `p` followed by `b` names what is wrong with `b`: a
    character, the length, or the checksum. -/
structure VerdictRight (p : NanoAccountPrefix) (b : Str) : Prop where
  encoding : (b.length = 60 ∧ ¬InAlphabet b) ∨ ¬StartsKey b →
    checkIfAddressIsValid mc anchor (p.rawValue ++ b) = .returns .invalidEncoding
  length : InAlphabet b → StartsKey b → b.length ≠ 60 →
    checkIfAddressIsValid mc anchor (p.rawValue ++ b) = .returns .invalidLength
  checksum : AddressBody b → ∀ bits, decodePublicKey (b.take 52) = .returns (some bits) →
    createChecksum mc (keyBytes bits) ≠ some (b.drop 52) →
      checkIfAddressIsValid mc anchor (p.rawValue ++ b) = .returns .invalidChecksum

/-- What follows a prefix is determined, and so is the prefix. -/
theorem rawValue_append_inj {p p' : NanoAccountPrefix} {b b' : Str}
    (h : p.rawValue ++ b = p'.rawValue ++ b') : b = b' := by
  have hhead : p.rawValue.head? = p'.rawValue.head? := by
    have hne : ∀ p : NanoAccountPrefix, p.rawValue ≠ [] := fun p => by cases p <;> decide
    rw [← List.head?_append_of_ne_nil _ (hne p), ← List.head?_append_of_ne_nil _ (hne p'), h]
  obtain rfl : p = p' := by
    revert hhead
    cases p <;> cases p' <;> decide
  exact List.append_cancel_left h

/-- Without line terminators, the expression matches what should follow a prefix. -/
theorem addressRegex_rawValue {p : NanoAccountPrefix} {b : Str}
    (hterm : ∀ x ∈ scalars b, x ∉ lineTerminators) :
    addressRegex anchor (scalars (p.rawValue ++ b)) = true ↔ AddressBody b := by
  rw [addressRegex_iff_body]
  refine ⟨?_, fun h => ⟨p, b, [], by rw [List.append_nil], h, by cases anchor <;> rfl⟩⟩
  rintro ⟨p', body, t, heq, hbody, ht⟩
  rw [List.append_assoc] at heq
  obtain rfl := rawValue_append_inj heq
  -- Only line terminators can follow, and there are none.
  have hnil : scalars t = [] := by
    refine List.eq_nil_iff_forall_not_mem.2 fun x hx => ?_
    rw [scalars_append] at hterm
    exact hterm x (List.mem_append_right _ hx) ((matches_mem ht).1 x hx)
  have : t.length = 0 := Nat.le_zero.1 ((length_le_scalars t).trans_eq (by rw [hnil]; rfl))
  rwa [List.length_eq_zero_iff.1 this, List.append_nil]

/-- The verdict on what does not match: by the first character, and then by the length. -/
theorem checkIfAddressIsValid_rawValue {p : NanoAccountPrefix} {b : Str} (hlen : 9 ≤ b.length)
    (hno : ¬addressRegex anchor (scalars (p.rawValue ++ b)) = true) :
    checkIfAddressIsValid mc anchor (p.rawValue ++ b) = .returns
      (if ¬StartsKey b then .invalidEncoding
      else if b.length ≠ 60 then .invalidLength else .invalidOther) := by
  have hcs : (b.drop (b.length - 8)).length = 8 := by
    rw [List.length_drop]
    omega
  have hcut : p.rawValue ++ b =
      p.rawValue ++ b.take (b.length - 8) ++ b.drop (b.length - 8) := by
    rw [List.append_assoc, List.take_append_drop]
  have hhead : (b.take (b.length - 8)).head? = b.head? := by
    rw [List.head?_take, if_neg (by omega)]
  have hcount : (b.take (b.length - 8)).length + (b.drop (b.length - 8)).length = b.length := by
    rw [← List.length_append, List.take_append_drop]
  have hstarts : (b.head? ≠ some (.scalar '1') ∧ b.head? ≠ some (.scalar '3')) ↔ ¬StartsKey b :=
    not_or.symm
  have hsplit : splitAddress (p.rawValue ++ b) =
      some (p, b.take (b.length - 8), b.drop (b.length - 8)) := by
    rw [hcut, splitAddress_rawValue p hcs]
  simp only [checkIfAddressIsValid, hsplit, if_neg hno, hhead, hcount, hstarts]
  split_ifs <;> rfl

/-- For what follows a prefix, of at least nine characters and without line
    terminators, the verdict is right if and only if it does not have sixty
    characters, `1` or `3` first and one that is not in the alphabet. What follows the
    prefix does not begin with a mark that would join the underscore before it, as the
    characters of both are those of the address. -/
theorem verdictRight_iff (p : NanoAccountPrefix) {b : Str} (hlen : 9 ≤ b.length)
    (hterm : ∀ x ∈ scalars b, x ∉ lineTerminators) :
    VerdictRight mc anchor p b ↔ ¬(b.length = 60 ∧ StartsKey b ∧ ¬InAlphabet b) := by
  have hregex := addressRegex_rawValue anchor (p := p) hterm
  refine ⟨?_, fun hno => ⟨fun h => ?_, fun hin hstarts hne => ?_, ?_⟩⟩
  · -- Nothing is found wrong with the first character and the length.
    rintro hright ⟨h60, hstarts, hout⟩
    have hverdict := hright.encoding (.inl ⟨h60, hout⟩)
    rw [checkIfAddressIsValid_rawValue mc anchor hlen (hregex.not.2 fun h => hout h.2.1),
      if_neg (not_not.2 hstarts), if_neg (not_not.2 h60)] at hverdict
    cases hverdict
  · -- If not the first character is wrong, it is another, which is excluded.
    have hstarts : ¬StartsKey b := h.elim (fun h hs => hno ⟨h.1, hs, h.2⟩) id
    rw [checkIfAddressIsValid_rawValue mc anchor hlen (hregex.not.2 fun h => hstarts h.2.2),
      if_pos hstarts]
  · rw [checkIfAddressIsValid_rawValue mc anchor hlen (hregex.not.2 fun h => hne h.1),
      if_neg (not_not.2 hstarts), if_pos hne]
  · intro hbody bits hbits hchecksum
    obtain ⟨i, is, rfl, hi, h59⟩ := addressBody_iff.1 hbody
    have h51 : (is.take 51).length = 51 := by simp [h59]
    obtain ⟨k, hk⟩ := exists_key h51 hi
    have hkey : ((i :: is).map symbol).take 52 = (i :: is.take 51).map symbol := by simp
    have hrest : ((i :: is).map symbol).drop 52 = (is.drop 51).map symbol := by simp
    rw [hkey, decodePublicKey, hk.decode] at hbits
    obtain rfl := Option.some.inj (Outcome.returns.inj hbits)
    rw [keyBytes_write, hrest] at hchecksum
    rw [← List.take_append_drop 52 ((i :: is).map symbol), hkey, hrest, ← List.append_assoc,
      checkIfAddressIsValid_symbols mc anchor p hk (by simp [h59]), if_neg hchecksum.symm]

/-- The wrong checksum of a key is found. -/
theorem verdictRight_checksum : VerdictRight .reversing .finalTerminator .nano
    (List.replicate 52 (.scalar '1') ++ List.replicate 8 (.scalar '3')) := by
  have hall : (scalars (List.replicate 52 (.scalar '1') ++ List.replicate 8 (.scalar '3'))).all
      (fun x => x ∉ lineTerminators) = true := by decide
  refine (verdictRight_iff .reversing .finalTerminator .nano (by decide) fun x hx => ?_).2 ?_
  · simpa using List.all_eq_true.1 hall x hx
  · rintro ⟨_, _, hout⟩
    exact hout (by decide)

/-- Of sixty characters, a second one that is not in the alphabet gives no verdict
    that names it. -/
theorem not_verdictRight_zero : ¬VerdictRight .reversing .finalTerminator .nano
    (text "10" ++ List.replicate 58 (.scalar '1')) := by
  intro h
  have hverdict := h.encoding (.inl (by decide))
  revert hverdict
  decide +kernel

end NanoSwift
