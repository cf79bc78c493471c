import NanoSwift.Account
import Mathlib.Data.List.Infix

/-!
# Addresses

Splitting an address into its prefix, the text of its key and its checksum
(`splitAddress`): eight characters are cut off its end, and the prefix off its
front.

`Splits` says what is accepted, in terms of the address alone, and
`splitAddress_eq_some` that this is what the function does. Of the prefix `nano_`
only four characters are looked at, so that a string splits exactly
(`SplitsExactly`) unless it starts with these and does not have the whole prefix
and eight further characters (`splitsExactly_iff`).
-/

namespace NanoSwift

/-! ## Splitting -/

/-- Some prefix occurs in the string. -/
def ContainsPrefix (s : Str) : Prop := text "nano_" <:+: s ∨ text "xrb_" <:+: s ∨ text "ban_" <:+: s

instance (s : Str) : Decidable (ContainsPrefix s) :=
  inferInstanceAs (Decidable (text "nano_" <:+: s ∨ text "xrb_" <:+: s ∨ text "ban_" <:+: s))

/-- The prefix, the text of the key and the checksum of an address. -/
def splitAddress (address : Str) : Option (NanoAccountPrefix × Str × Str) :=
  if ContainsPrefix address then
    let addressNoChecksum := address.take (address.length - 8)
    let checksum := address.drop (address.length - 8)
    -- The fifth character, which should be an underscore, is not looked at.
    if addressNoChecksum.take 4 = text "nano" then
      some (.nano, addressNoChecksum.drop 5, checksum)
    else if addressNoChecksum.take 4 = text "xrb_" then
      some (.xrb, addressNoChecksum.drop 4, checksum)
    else if addressNoChecksum.take 4 = text "ban_" then
      some (.banano, addressNoChecksum.drop 4, checksum)
    else none
  else none

/-- `head` is what splitting takes off the front of an address as the prefix `p`:
    for `nano` any fifth character, or none if the key is empty. -/
def PrefixHead (p : NanoAccountPrefix) (head key : Str) : Prop :=
  match p with
  | .nano => (∃ c, head = text "nano" ++ [c]) ∨ (head = text "nano" ∧ key = [])
  | .xrb => head = text "xrb_"
  | .banano => head = text "ban_"

/-- The address `a` is cut into a head, the text of a key and a checksum. -/
def Splits (a : Str) (p : NanoAccountPrefix) (key checksum : Str) : Prop :=
  ContainsPrefix a ∧ checksum.length = 8 ∧
    ∃ head, a = head ++ key ++ checksum ∧ PrefixHead p head key

theorem rawValue_isInfix (p : NanoAccountPrefix) (s : Str) : ContainsPrefix (p.rawValue ++ s) := by
  cases p with
  | nano => exact .inl ⟨[], s, rfl⟩
  | xrb => exact .inr (.inl ⟨[], s, rfl⟩)
  | banano => exact .inr (.inr ⟨[], s, rfl⟩)

/-- The parts of an address cut by `Splits`. -/
theorem splitAddress_of_splits {a : Str} {p : NanoAccountPrefix} {key checksum : Str}
    (h : Splits a p key checksum) : splitAddress a = some (p, key, checksum) := by
  obtain ⟨hcontains, hlen, head, rfl, hhead⟩ := h
  have hcut : (head ++ key ++ checksum).length - 8 = (head ++ key).length := by
    rw [List.length_append, hlen, Nat.add_sub_cancel]
  rw [splitAddress, if_pos hcontains]
  simp only [hcut, List.take_left, List.drop_left]
  cases p with
  | nano =>
    rcases hhead with ⟨c, rfl⟩ | ⟨rfl, rfl⟩
    · rw [if_pos (by rfl)]
      rfl
    · rfl
  | xrb =>
    obtain rfl : head = text "xrb_" := hhead
    rw [if_neg (by simp [text]), if_pos (by rfl)]
    rfl
  | banano =>
    obtain rfl : head = text "ban_" := hhead
    rw [if_neg (by simp [text]), if_neg (by simp [text]), if_pos (by rfl)]
    rfl

/-- Splitting cuts an address as `Splits` says, or fails. -/
theorem splitAddress_eq_some {a : Str} {p : NanoAccountPrefix} {key checksum : Str} :
    splitAddress a = some (p, key, checksum) ↔ Splits a p key checksum := by
  refine ⟨fun h => ?_, splitAddress_of_splits⟩
  simp only [splitAddress] at h
  split_ifs at h with hcontains hnano hxrb hban
  all_goals
    simp only [Option.some.injEq, Prod.mk.injEq] at h
    obtain ⟨rfl, rfl, rfl⟩ := h
  -- The prefix of four characters is there, so that there are eight after it.
  all_goals
    have hfour := congrArg List.length ‹_ = text _›
    rw [List.length_take, List.length_take] at hfour
    have h12 : 12 ≤ a.length := by
      have hl : (text "nano").length = 4 ∧ (text "xrb_").length = 4 ∧ (text "ban_").length = 4 := by
        decide
      omega
    have hcut := List.take_append_drop (a.length - 8) a
    have hlen : (a.drop (a.length - 8)).length = 8 := by
      rw [List.length_drop]
      omega
  · refine ⟨hcontains, hlen, (a.take (a.length - 8)).take 5, ?_, ?_⟩
    · rw [List.take_append_drop, hcut]
    · rcases hrest : (a.take (a.length - 8)).drop 4 with _ | ⟨c, rest⟩
      · have hshort : (a.take (a.length - 8)).length ≤ 4 := by
          simpa [Nat.sub_eq_zero_iff_le] using congrArg List.length hrest
        refine .inr ⟨?_, ?_⟩
        · exact (List.take_of_length_le (by omega)).trans
            ((List.take_of_length_le hshort).symm.trans hnano)
        · rw [show 5 = 4 + 1 from rfl, ← List.drop_drop, hrest, List.drop_nil]
      · refine .inl ⟨c, ?_⟩
        rw [show 5 = 4 + 1 from rfl, List.take_add, hnano, hrest]
        rfl
  · exact ⟨hcontains, hlen, _, by rw [← hxrb, List.take_append_drop, hcut], rfl⟩
  · exact ⟨hcontains, hlen, _, by rw [← hban, List.take_append_drop, hcut], rfl⟩

/-- What follows a full prefix is cut eight characters before its end. -/
theorem splitAddress_rawValue (p : NanoAccountPrefix) {key checksum : Str}
    (h : checksum.length = 8) :
    splitAddress (p.rawValue ++ key ++ checksum) = some (p, key, checksum) := by
  refine splitAddress_of_splits ⟨?_, h, p.rawValue, rfl, ?_⟩
  · rw [List.append_assoc]
    exact rawValue_isInfix p _
  · cases p with
    | nano => exact .inl ⟨.scalar '_', rfl⟩
    | xrb => rfl
    | banano => rfl

/-! ## What is lost -/

/-- The string has a prefix and at least eight further characters. -/
def IsSplittable (a : Str) : Prop :=
  ∃ (p : NanoAccountPrefix) (rest : Str), a = p.rawValue ++ rest ∧ 8 ≤ rest.length

/-- The string is split exactly if it has a prefix and at least eight further
    characters, and its parts are a prefix, a key and a checksum of eight
    characters that make it up. -/
def SplitsExactly (a : Str) : Prop :=
  ((splitAddress a).isSome ↔ IsSplittable a) ∧
  ∀ p key checksum, splitAddress a = some (p, key, checksum) →
    checksum.length = 8 ∧ p.rawValue ++ key ++ checksum = a

/-- The string has four characters of `nano_` at its start, at least eight more,
    and some prefix somewhere, but not `nano_` with eight more at its start. -/
def MissesUnderscore (a : Str) : Prop :=
  text "nano" <+: a ∧ 12 ≤ a.length ∧ ContainsPrefix a ∧
    ¬(text "nano_" <+: a ∧ 13 ≤ a.length)

/-- What has a prefix and at least eight further characters is split. -/
theorem IsSplittable.isSome {a : Str} (h : IsSplittable a) : (splitAddress a).isSome := by
  obtain ⟨p, rest, rfl, hrest⟩ := h
  have hlen : (rest.drop (rest.length - 8)).length = 8 := by
    rw [List.length_drop]
    omega
  rw [← List.take_append_drop (rest.length - 8) rest, ← List.append_assoc,
    splitAddress_rawValue p hlen]
  rfl

/-- Four characters of `nano_`, at least eight more, and some prefix are enough to be split. -/
theorem isSome_of_nano {a : Str} (hnano : text "nano" <+: a) (hlen : 12 ≤ a.length)
    (hcontains : ContainsPrefix a) : (splitAddress a).isSome := by
  have htake : (a.take (a.length - 8)).take 4 = text "nano" := by
    obtain ⟨rest, rfl⟩ := hnano
    have hfour : (text "nano").length = 4 := by decide
    rw [List.take_take, Nat.min_eq_left (by omega), List.take_left' hfour]
  simp [splitAddress, hcontains, htake]

/-- Where the underscore is not missed, the parts make up what is split. -/
theorem Splits.append_eq {a : Str} {p : NanoAccountPrefix} {key checksum : Str}
    (h : Splits a p key checksum) (hno : ¬MissesUnderscore a) :
    p.rawValue ++ key ++ checksum = a := by
  obtain ⟨hcontains, hlen, head, rfl, hhead⟩ := h
  cases p with
  | xrb =>
    obtain rfl : head = text "xrb_" := hhead
    rfl
  | banano =>
    obtain rfl : head = text "ban_" := hhead
    rfl
  | nano =>
    have hfour : (text "nano").length = 4 := by decide
    have hnano : text "nano" <+: head ++ key ++ checksum := by
      rcases hhead with ⟨c, rfl⟩ | ⟨rfl, _⟩ <;> simp [List.append_assoc]
    have h12 : 12 ≤ (head ++ key ++ checksum).length := by
      rcases hhead with ⟨c, rfl⟩ | ⟨rfl, _⟩ <;> simp only [List.length_append] <;> omega
    -- The whole prefix is there, and so it is what is cut off as the head.
    obtain ⟨hunder, h13⟩ : text "nano_" <+: head ++ key ++ checksum ∧
        13 ≤ (head ++ key ++ checksum).length := by
      by_contra hmiss
      exact hno ⟨hnano, h12, hcontains, hmiss⟩
    rcases hhead with ⟨c, rfl⟩ | ⟨rfl, rfl⟩
    · have hc : c = .scalar '_' := by
        rw [show text "nano_" = text "nano" ++ [.scalar '_'] from rfl, List.append_assoc,
          List.append_assoc, List.prefix_append_right_inj] at hunder
        exact ((List.cons_prefix_cons).1 hunder).1.symm
      rw [hc]
      rfl
    · simp only [List.length_append, List.length_nil] at h13
      omega

theorem splitsExactly_iff {a : Str} : SplitsExactly a ↔ ¬MissesUnderscore a := by
  refine ⟨?_, fun hno => ?_⟩
  · -- What misses the underscore is split, and is not splittable: not by another
    -- prefix either, as these begin with another letter.
    rintro ⟨hsome, _⟩ ⟨hnano, h12, hcontains, hmiss⟩
    obtain ⟨p, rest, rfl, hrest⟩ := hsome.1 (isSome_of_nano hnano h12 hcontains)
    cases p with
    | nano =>
      refine hmiss ⟨List.prefix_append _ _, ?_⟩
      have hfive : (NanoAccountPrefix.rawValue .nano).length = 5 := by decide
      rw [List.length_append, hfive]
      omega
    | xrb => exact absurd (List.cons_prefix_cons.1 hnano).1 (by decide)
    | banano => exact absurd (List.cons_prefix_cons.1 hnano).1 (by decide)
  · have hparts : ∀ p key checksum, splitAddress a = some (p, key, checksum) →
        checksum.length = 8 ∧ p.rawValue ++ key ++ checksum = a := by
      intro p key checksum h
      have hsplits := splitAddress_eq_some.1 h
      exact ⟨hsplits.2.1, hsplits.append_eq hno⟩
    refine ⟨⟨fun h => ?_, IsSplittable.isSome⟩, hparts⟩
    obtain ⟨⟨p, key, checksum⟩, h⟩ := Option.isSome_iff_exists.1 h
    obtain ⟨hlen, heq⟩ := hparts p key checksum h
    refine ⟨p, key ++ checksum, by rw [← heq, List.append_assoc], ?_⟩
    rw [List.length_append]
    omega

/-- Two strings are split exactly, and into the same parts only if they are equal,
    if and only if neither misses the underscore. -/
theorem splitAddress_exact_iff (x y : Str) :
    (SplitsExactly x ∧ SplitsExactly y ∧
      ∀ parts, splitAddress x = some parts → splitAddress y = some parts → x = y) ↔
    (¬MissesUnderscore x ∧ ¬MissesUnderscore y) := by
  rw [splitsExactly_iff, splitsExactly_iff, ← and_assoc, and_iff_left_iff_imp]
  rintro ⟨hx, hy⟩ ⟨p, key, checksum⟩ hpx hpy
  have heqx := ((splitsExactly_iff.2 hx).2 p key checksum hpx).2
  have heqy := ((splitsExactly_iff.2 hy).2 p key checksum hpy).2
  rw [← heqx, heqy]

/-- A hyphen goes for the underscore, and is lost. -/
theorem not_splitsExactly_hyphen :
    ¬SplitsExactly (text "nano-ban_12345678") ∧
    splitAddress (text "nano-ban_12345678") = splitAddress (text "nano_ban_12345678") := by
  refine ⟨fun h => ?_, by decide⟩
  exact absurd (h.2 .nano (text "ban_") (text "12345678") (by decide)).2 (by decide)

end NanoSwift
