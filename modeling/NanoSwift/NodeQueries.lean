import NanoSwift.Node
import NanoSwift.BlockManager
import Mathlib.Data.List.Dedup
import Mathlib.Data.List.Nodup

/-!
# Queries

What the client asks a node about an account: its information, and the blocks
pending for it. Both responses are decoded from JSON; of an object, `members` are
the ones a decoder finds, with different keys.

Account information needs all of its members to be strings. The blocks of a
response about pending ones are a dictionary, and there is none if it does not
decode, for whatever reason (`nanoPendingResponse`).

A dictionary is a hash table, and no two of them need to agree on an order, even
with the same entries (`DictionaryOrder`). Its keys are Swift strings, of which it
tells apart those that are not canonically equivalent (`Normalization`): where all
members of an object are told apart, the dictionary has them all
(`DictionaryOrder.entries_perm`), and else fewer (`nodup_of_length_entries`).
-/

namespace NanoSwift

/-! ## Decoding -/

/-- The members of an object, of several with one key the first. -/
def Json.members : Json → Option (List (Str × Json))
  | obj members => some (members.foldr (fun m rest => m :: rest.filter (·.1 ≠ m.1)) [])
  | _ => none

/-- The member with the key `key`, if it is a string. -/
def Json.stringMember (key : Str) (j : Json) : Option Str := (j.member key).bind Json.string

/-- The account information in a response: all members must be there, as strings. -/
def nanoAccountInfo (response : Json) : Option NanoAccountInfo := do
  let frontier ← response.stringMember (text "frontier")
  let open_block ← response.stringMember (text "open_block")
  let representative_block ← response.stringMember (text "representative_block")
  let balance ← response.stringMember (text "balance")
  let modified_timestamp ← response.stringMember (text "modified_timestamp")
  let block_count ← response.stringMember (text "block_count")
  let account_version ← response.stringMember (text "account_version")
  let confirmation_height ← response.stringMember (text "confirmation_height")
  let confirmation_height_frontier ← response.stringMember (text "confirmation_height_frontier")
  let representative ← response.stringMember (text "representative")
  return { frontier, open_block, representative_block, balance, modified_timestamp, block_count,
           account_version, confirmation_height, confirmation_height_frontier, representative }

/-- An entry of the dictionary of pending blocks. -/
structure NanoPendingBlockDecoder where
  amount : Str
  source : Str
  deriving DecidableEq

/-- The entry in a value: an object with two members that are strings. -/
def nanoPendingBlockDecoder (value : Json) : Option NanoPendingBlockDecoder := do
  let amount ← value.stringMember (text "amount")
  let source ← value.stringMember (text "source")
  return { amount, source }

/-- The dictionary in a value: an object all members of which decode. -/
def jsonBlocks (value : Json) : Option (List (Str × NanoPendingBlockDecoder)) := do
  (← value.members).mapM fun member => return (member.1, ← nanoPendingBlockDecoder member.2)

/-! ## Dictionaries -/

/-- The normal form of strings: Swift takes two strings for equal if theirs is the
    same. ASCII strings are in normal form. -/
structure Normalization where
  form : Str → Str
  form_ascii : ∀ s, (∀ c ∈ scalars s, c.toNat < 128) → form s = s

/-- The normal form of strings with Kelvin signs, which are letters to it. -/
def Normalization.kelvin : Normalization where
  form s := s.map fun c => if c = .scalar '\u212a' then .scalar 'K' else c
  form_ascii s h := by
    refine (List.map_congr_left fun c hc => if_neg ?_).trans (List.map_id s)
    rintro rfl
    exact absurd (h _ (List.mem_flatMap.2 ⟨_, hc, List.mem_singleton_self _⟩)) (by decide)

/-- The normal forms of the keys of some members. -/
def Normalization.keys {α : Type} (nf : Normalization) (members : List (Str × α)) : List Str :=
  members.map fun member => nf.form member.1

/-- What one dictionary gives when it is gone through, by the entries it is made from,
    in the order of the response: one entry for each key, in some order. Of entries
    with equal keys, it may have the key of one and the value of another. -/
structure DictionaryOrder (nf : Normalization) where
  entries : List (Str × NanoPendingBlockDecoder) → List (Str × NanoPendingBlockDecoder)
  keys_perm : ∀ made, (nf.keys (entries made)).Perm (nf.keys made).dedup
  of_mem : ∀ made, ∀ entry ∈ entries made, (∃ e ∈ made, e.1 = entry.1) ∧
    ∃ e ∈ made, e.2 = entry.2 ∧ nf.form e.1 = nf.form entry.1

namespace DictionaryOrder

variable {nf : Normalization} (order : DictionaryOrder nf)

/-- A dictionary of entries with different keys has them all. -/
theorem entries_perm {made : List (Str × NanoPendingBlockDecoder)} (h : (nf.keys made).Nodup) :
    (order.entries made).Perm made := by
  have hkeys := order.keys_perm made
  rw [h.dedup] at hkeys
  have hinj := List.inj_on_of_nodup_map h
  -- The key and the value of an entry are those of one that the dictionary is made from.
  have hsubset : order.entries made ⊆ made := by
    intro entry hentry
    obtain ⟨⟨e, he, hkey⟩, e', he', hvalue, hform⟩ := order.of_mem made entry hentry
    obtain rfl := hinj he he' (by rw [hform, hkey])
    exact (Prod.ext hkey hvalue : e = entry) ▸ he
  have hnodup : (order.entries made).Nodup :=
    List.Nodup.of_map _ ((hkeys.nodup_iff).2 h : (nf.keys (order.entries made)).Nodup)
  have hlength : (order.entries made).length = made.length := by
    simpa [Normalization.keys] using hkeys.length_eq
  exact (hnodup.subperm hsubset).perm_of_length_le hlength.ge

/-- A dictionary that has as many entries as it is made from has been given different keys. -/
theorem nodup_of_length_entries {made : List (Str × NanoPendingBlockDecoder)}
    (h : (order.entries made).length = made.length) : (nf.keys made).Nodup := by
  have hlength : (nf.keys made).length ≤ (nf.keys made).dedup.length := by
    rw [← (order.keys_perm made).length_eq, Normalization.keys, Normalization.keys, List.length_map,
      List.length_map, h]
  rw [← (List.dedup_sublist _).eq_of_length_le hlength]
  exact List.nodup_dedup _

@[simp] theorem entries_nil : order.entries [] = [] :=
  List.perm_nil.1 (order.entries_perm List.nodup_nil)

variable (nf) in
/-- The order of the response; of entries with equal keys, the last is kept. -/
def given : DictionaryOrder nf where
  entries := List.pwFilter fun e e' => nf.form e.1 ≠ nf.form e'.1
  keys_perm made := by
    refine (List.perm_ext_iff_of_nodup ?_ (List.nodup_dedup _)).2 fun key => ?_
    · exact List.pairwise_map.2 (List.pairwise_pwFilter made)
    · rw [List.mem_dedup, Normalization.keys, Normalization.keys, List.mem_map, List.mem_map]
      refine ⟨fun ⟨e, he, hkey⟩ => ⟨e, List.pwFilter_subset made he, hkey⟩, ?_⟩
      rintro ⟨e, he, rfl⟩
      by_contra hno
      -- No entry that is kept has the key, so that this one would be.
      refine (List.forall_mem_pwFilter (fun {e₁ e₂ e₃} h => ?_) e made).1
        (fun e' he' heq => hno ⟨e', he', heq.symm⟩) e he rfl
      by_contra hboth
      obtain ⟨h₁, h₂⟩ := not_or.1 hboth
      exact h ((not_not.1 h₁).trans (not_not.1 h₂))
  of_mem made entry hentry :=
    have hmem := List.pwFilter_subset made hentry
    ⟨⟨entry, hmem, rfl⟩, entry, hmem, rfl, rfl⟩

/-- The entries as they come if those that the dictionary is made from are rearranged. -/
def rearranged (f : List (Str × NanoPendingBlockDecoder) → List (Str × NanoPendingBlockDecoder))
    (hf : ∀ made, (f made).Perm made) : DictionaryOrder nf where
  entries made := order.entries (f made)
  keys_perm made := (order.keys_perm (f made)).trans (((hf made).map _).dedup)
  of_mem made entry hentry := by
    simpa only [(hf made).mem_iff] using order.of_mem (f made) entry hentry

variable (nf) in
/-- An order in which an entry, if it is there, is the last one. -/
def endingIn (e : Str × NanoPendingBlockDecoder) : DictionaryOrder nf :=
  (given nf).rearranged (fun made => if e ∈ made then made.erase e ++ [e] else made) fun made => by
    split_ifs with he
    · exact List.perm_append_comm.trans (List.perm_cons_erase he).symm
    · rfl

theorem getLast?_given (made : List (Str × NanoPendingBlockDecoder))
    (e : Str × NanoPendingBlockDecoder) : ((given nf).entries (made ++ [e])).getLast? = some e := by
  induction made with
  | nil => rfl
  | cons e' made ih =>
    change (List.pwFilter _ (e' :: (made ++ [e]))).getLast? = _
    change (List.pwFilter _ (made ++ [e])).getLast? = _ at ih
    by_cases h : ∀ e'' ∈ List.pwFilter (fun e e' => nf.form e.1 ≠ nf.form e'.1) (made ++ [e]),
        nf.form e'.1 ≠ nf.form e''.1
    · rw [List.pwFilter_cons_of_pos h, List.getLast?_cons, ih, Option.getD_some]
    · rw [List.pwFilter_cons_of_neg h, ih]

theorem getLast?_endingIn {made : List (Str × NanoPendingBlockDecoder)}
    {e : Str × NanoPendingBlockDecoder} (he : e ∈ made) :
    ((endingIn nf e).entries made).getLast? = some e := by
  change ((given nf).entries (if e ∈ made then made.erase e ++ [e] else made)).getLast? = some e
  rw [if_pos he, getLast?_given]

end DictionaryOrder

variable (l : Locale) {nf : Normalization} (order : DictionaryOrder nf)

/-! ## Pending blocks -/

/-- The pending block of an entry. -/
def pendingBlock (entry : Str × NanoPendingBlockDecoder) : NanoPendingBlock where
  hash := entry.1
  amount := .ofRaw l entry.2.amount
  source := entry.2.source

/-- The pending blocks in a response, which must be an object; none if it has no
    dictionary of them. -/
def nanoPendingResponse (response : Json) : Option (List NanoPendingBlock) := do
  let _ ← response.members
  let blocks := (response.member (text "blocks")).bind jsonBlocks
  return (order.entries (blocks.getD [])).map (pendingBlock l)

theorem nanoPendingResponse_eq_none_iff (response : Json) :
    nanoPendingResponse l order response = none ↔ ∀ members, response ≠ .obj members := by
  cases response <;> simp [nanoPendingResponse, Json.members]

/-! ## Requests -/

variable (net : Network) (node : NanoNode)

/-- The body of a request for account information. -/
def accountInfoBody (account : NanoAccount) : Json :=
  .obj
    [(text "action", .str (text "account_info")),
      (text "representative", .str (text "true")),
      (text "account", .str account.publicAddress)]

/-- The information about an account. -/
def getAccountInfo (account : NanoAccount) : Call NanoAccountInfo := do
  let data ← rpcRequest net node (accountInfoBody account)
  let info ← Outcome.guardLet ((net.json data).bind nanoAccountInfo) RequestError.decoding
  return info

/-- Puts its information into an account. -/
def putAccountInfo (account : NanoAccount) (past : List Json) :
    NanoAccount × Outcome RequestError (Unit × List Json) :=
  match getAccountInfo net node account past with
  | .returns (accountInfo, past) =>
    ({ account with accountInfo := some accountInfo }, .returns ((), past))
  | .throws e => (account, .throws e)
  | .traps t => (account, .traps t)

/-- The body of a request for pending blocks. -/
def pendingBody (account : NanoAccount) (threshold : NanoAmount)
    (includeOnlyConfirmed includeActive : Bool) : Json :=
  .obj
    [(text "action", .str (text "pending")),
      (text "account", .str account.publicAddress),
      (text "source", .str (text "true")),
      (text "threshold", .str (threshold.rawString l)),
      (text "include_only_confirmed",
        .str (if includeOnlyConfirmed then text "true" else text "false")),
      (text "include_active", .str (if includeActive then text "true" else text "false"))]

/-- The blocks pending for an account. -/
def getPendingBlocks (account : NanoAccount) (threshold : NanoAmount := .ofRaw l (text "0"))
    (includeOnlyConfirmed : Bool := true) (includeActive : Bool := false) :
    Call (List NanoPendingBlock) := do
  let data ← rpcRequest net node
    (pendingBody l account threshold includeOnlyConfirmed includeActive)
  let blocks ← Outcome.guardLet ((net.json data).bind (nanoPendingResponse l order))
    RequestError.decoding
  return blocks

variable {net node} in
/-- Information that cannot be had leaves the account as it is. -/
theorem putAccountInfo_of_throws {account : NanoAccount} {past : List Json} {e : RequestError}
    (h : (putAccountInfo net node account past).2 = .throws e) :
    (putAccountInfo net node account past).1 = account := by
  unfold putAccountInfo at h ⊢
  split at h
  · cases h
  · rfl
  · cases h

end NanoSwift
