import NanoSwift.NodeErrors
import Mathlib.Data.List.Forall2

/-!
# Responses about pending blocks

What asking for pending blocks makes of the member `blocks` of a response. The
blocks that are returned are the ones it tells (`BlocksTell`) unless it is not as it
should be, and then there are none, or a block is missing, or an amount is another
(`pendingRight_iff`).

A member is lost if its key is canonically equivalent to that of another one, which
no two keys of ASCII characters are (`nodup_keys_of_ascii`), and so no two hashes. An
amount is altered if it is no numeral, or the numeral of a number that is not
represented.
-/

namespace NanoSwift

open NodeCall

/-! ## Entries -/

/-- An entry of a dictionary is what a member of an object decodes to. -/
def MemberDecodes (member : Str × Json) (entry : Str × NanoPendingBlockDecoder) : Prop :=
  entry.1 = member.1 ∧ member.2.stringMember (text "amount") = some entry.2.amount ∧
    member.2.stringMember (text "source") = some entry.2.source

theorem nanoPendingBlockDecoder_eq_some {value : Json} {decoded : NanoPendingBlockDecoder} :
    nanoPendingBlockDecoder value = some decoded ↔
      value.stringMember (text "amount") = some decoded.amount ∧
        value.stringMember (text "source") = some decoded.source := by
  obtain ⟨amount, source⟩ := decoded
  simp only [nanoPendingBlockDecoder, Option.bind_eq_bind, Option.bind_eq_some_iff, Option.pure_def,
    Option.some.injEq, NanoPendingBlockDecoder.mk.injEq]
  constructor
  · rintro ⟨_, hamount, _, hsource, rfl, rfl⟩
    exact ⟨hamount, hsource⟩
  · rintro ⟨hamount, hsource⟩
    exact ⟨_, hamount, _, hsource, rfl, rfl⟩

/-- A value has a dictionary if it is an object all members of which decode. -/
theorem jsonBlocks_eq_some {value : Json} {made : List (Str × NanoPendingBlockDecoder)} :
    jsonBlocks value = some made ↔
      ∃ members, value.members = some members ∧ List.Forall₂ MemberDecodes members made := by
  have hmapM : ∀ (members : List (Str × Json)) (made : List (Str × NanoPendingBlockDecoder)),
      (members.mapM fun member => return (member.1, ← nanoPendingBlockDecoder member.2)) =
        some made ↔ List.Forall₂ MemberDecodes members made := by
    intro members
    induction members with
    | nil => simp [eq_comm]
    | cons member members ih =>
      intro made
      rw [List.mapM_cons, List.forall₂_cons_left_iff]
      constructor
      · intro h
        obtain ⟨entry, hentry, h⟩ := Option.bind_eq_some_iff.1 h
        obtain ⟨rest, hrest, h⟩ := Option.bind_eq_some_iff.1 h
        obtain ⟨decoded, hdecoded, heq⟩ := Option.bind_eq_some_iff.1 hentry
        obtain rfl := Option.some.inj heq
        obtain rfl := Option.some.inj h
        exact ⟨_, rest, ⟨rfl, nanoPendingBlockDecoder_eq_some.1 hdecoded⟩, (ih rest).1 hrest, rfl⟩
      · rintro ⟨⟨_, decoded⟩, rest, ⟨rfl, hdecoded⟩, hrest, rfl⟩
        refine Option.bind_eq_some_iff.2 ⟨(member.1, decoded), ?_, ?_⟩
        · exact Option.bind_eq_some_iff.2 ⟨decoded, nanoPendingBlockDecoder_eq_some.2 hdecoded, rfl⟩
        · exact Option.bind_eq_some_iff.2 ⟨rest, (ih rest).2 hrest, rfl⟩
  exact Option.bind_eq_some_iff.trans
    (exists_congr fun members => and_congr_right fun _ => hmapM members made)

/-- A member decodes: it is an object with strings for an amount and a source. -/
def MemberReads (member : Str × Json) : Prop :=
  (member.2.stringMember (text "amount")).isSome ∧ (member.2.stringMember (text "source")).isSome

theorem exists_decodes_iff {members : List (Str × Json)} :
    (∃ made, List.Forall₂ MemberDecodes members made) ↔ ∀ m ∈ members, MemberReads m := by
  induction members with
  | nil => simp
  | cons member members ih =>
    rw [List.forall_mem_cons, ← ih]
    constructor
    · rintro ⟨_, hmade⟩
      cases hmade with
      | cons hone hrest =>
        obtain ⟨_, hamount, hsource⟩ := hone
        exact ⟨⟨by rw [hamount]; rfl, by rw [hsource]; rfl⟩, _, hrest⟩
    · rintro ⟨⟨hamount, hsource⟩, made, hrest⟩
      obtain ⟨amount, hamount⟩ := Option.isSome_iff_exists.1 hamount
      obtain ⟨source, hsource⟩ := Option.isSome_iff_exists.1 hsource
      exact ⟨(member.1, ⟨amount, source⟩) :: made, .cons ⟨rfl, hamount, hsource⟩ hrest⟩

/-- The members of an object have different keys. -/
theorem nodup_members {value : Json} {members : List (Str × Json)}
    (h : value.members = some members) : (members.map Prod.fst).Nodup := by
  cases value with
  | str s => cases h
  | other => cases h
  | obj given =>
    obtain rfl := Option.some.inj h
    induction given with
    | nil => exact List.nodup_nil
    | cons m given ih =>
      rw [List.foldr_cons, List.map_cons, List.nodup_cons]
      refine ⟨?_, (ih rfl).sublist (List.filter_sublist.map _)⟩
      rintro hmem
      obtain ⟨m', hm', heq⟩ := List.mem_map.1 hmem
      simp [heq] at hm'

variable {nf : Normalization}

/-- Entries have the keys of the members. -/
theorem map_fst_of_decodes {members : List (Str × Json)}
    {made : List (Str × NanoPendingBlockDecoder)} (h : List.Forall₂ MemberDecodes members made) :
    made.map Prod.fst = members.map Prod.fst := by
  induction h with
  | nil => rfl
  | cons hone _ ih => rw [List.map_cons, List.map_cons, hone.1, ih]

theorem keys_of_decodes {members : List (Str × Json)} {made : List (Str × NanoPendingBlockDecoder)}
    (h : List.Forall₂ MemberDecodes members made) : nf.keys made = nf.keys members := by
  have hfst := congrArg (List.map nf.form) (map_fst_of_decodes h)
  rwa [List.map_map, List.map_map] at hfst

/-- Different keys of ASCII characters have different normal forms. -/
theorem nodup_keys_of_ascii {value : Json} {members : List (Str × Json)}
    (hmembers : value.members = some members)
    (hascii : ∀ m ∈ members, ∀ c ∈ scalars m.1, c.toNat < 128) : (nf.keys members).Nodup := by
  have hkeys : nf.keys members = members.map Prod.fst :=
    List.map_congr_left fun m hm => nf.form_ascii m.1 (hascii m hm)
  rw [hkeys]
  exact nodup_members hmembers

/-! ## Orders -/

/-- The entries of the dictionary in a response, in the order of the response; none if
    there is no dictionary. -/
def madeOf (response : Json) : List (Str × NanoPendingBlockDecoder) :=
  ((response.member (text "blocks")).bind jsonBlocks).getD []

theorem nodup_madeOf (response : Json) : ((madeOf response).map Prod.fst).Nodup := by
  rw [madeOf]
  cases hmade : (response.member (text "blocks")).bind jsonBlocks with
  | none => exact List.nodup_nil
  | some made =>
    obtain ⟨blocks, _, hjson⟩ := Option.bind_eq_some_iff.1 hmade
    obtain ⟨members, hmembers, hdecodes⟩ := jsonBlocks_eq_some.1 hjson
    rw [Option.getD_some, map_fst_of_decodes hdecodes]
    exact nodup_members hmembers

section Orders

variable (l : Locale) {made : List (Str × NanoPendingBlockDecoder)}

/-- Dictionaries with the same entries give the same blocks in the same order, whatever
    their orders, if and only if there is at most one. -/
theorem forall_orders_eq_iff (h : (made.map Prod.fst).Nodup) :
    (∀ order order' : DictionaryOrder nf, (order.entries made).map (pendingBlock l) =
      (order'.entries made).map (pendingBlock l)) ↔ made.length ≤ 1 := by
  constructor
  · intro hall
    by_contra hlen
    have h0 : 0 < made.length := by omega
    have h1 : 1 < made.length := by omega
    -- Either of the first two may be the last.
    have hlast := congrArg List.getLast? (hall (.endingIn nf made[0]) (.endingIn nf made[1]))
    rw [List.getLast?_map, List.getLast?_map,
      DictionaryOrder.getLast?_endingIn (List.getElem_mem h0),
      DictionaryOrder.getLast?_endingIn (List.getElem_mem h1)] at hlast
    have hkey : made[0].1 = made[1].1 := congrArg NanoPendingBlock.hash (Option.some.inj hlast)
    have hk0 : 0 < (made.map Prod.fst).length := by rwa [List.length_map]
    have hk1 : 1 < (made.map Prod.fst).length := by rwa [List.length_map]
    have hkeys : (made.map Prod.fst)[0] = (made.map Prod.fst)[1] := by
      rwa [List.getElem_map, List.getElem_map]
    have hindex := h.getElem_inj_iff.1 hkeys
    exact absurd hindex (by decide)
  · intro hlen order order'
    have hkeys : (nf.keys made).Nodup := by
      rcases made with _ | ⟨e, _ | ⟨e', made⟩⟩
      · exact List.nodup_nil
      · exact List.nodup_singleton _
      · simp at hlen
    have hentries : ∀ order : DictionaryOrder nf, order.entries made = made := fun order => by
      have hperm := order.entries_perm hkeys
      rcases made with _ | ⟨e, _ | ⟨e', made⟩⟩
      · exact List.perm_nil.1 hperm
      · exact List.perm_singleton.1 hperm
      · simp at hlen
    rw [hentries order, hentries order']

/-- They give the same blocks in some order if and only if all keys are different. -/
theorem forall_orders_perm_iff (h : (made.map Prod.fst).Nodup) :
    (∀ order order' : DictionaryOrder nf, ((order.entries made).map (pendingBlock l)).Perm
      ((order'.entries made).map (pendingBlock l))) ↔ (nf.keys made).Nodup := by
  constructor
  · intro hall
    refine List.Nodup.map_on (fun e he e' he' hform => ?_) (List.Nodup.of_map _ h)
    -- Of two entries with equal keys, either may be the one that is kept.
    have hkept : ∀ e ∈ made, e ∈ (DictionaryOrder.endingIn nf e).entries made := fun e he =>
      List.mem_of_getLast? (DictionaryOrder.getLast?_endingIn he)
    obtain ⟨x, hx, hblock⟩ := List.mem_map.1 ((hall (.endingIn nf e) (.endingIn nf e')).mem_iff.2
      (List.mem_map_of_mem (hkept e' he')))
    have hkey : x.1 = e'.1 := congrArg NanoPendingBlock.hash hblock
    have hnodup : (nf.keys ((DictionaryOrder.endingIn nf e).entries made)).Nodup :=
      (DictionaryOrder.keys_perm _ made).nodup_iff.2 (List.nodup_dedup _)
    obtain rfl := List.inj_on_of_nodup_map hnodup hx (hkept e he)
      ((congrArg nf.form hkey).trans hform.symm)
    exact List.inj_on_of_nodup_map h he he' hkey
  · intro hkeys order order'
    exact ((order.entries_perm hkeys).trans (order'.entries_perm hkeys).symm).map _

end Orders

/-! ## What a response tells -/

/-- The block is what a member of a dictionary tells: its key is the hash, and its
    members are the source and the decimal numeral of the amount. -/
def MemberTells (member : Str × Json) (block : NanoPendingBlock) : Prop :=
  block.hash = member.1 ∧ member.2.stringMember (text "source") = some block.source ∧
    ∃ amount n, member.2.stringMember (text "amount") = some amount ∧
      parseDigits 10 amount = some n ∧ block.amount = ⟨n⟩

/-- The pending blocks are those that the member `blocks` of a response tells, each
    once, in some order: none if it is the empty string, or one for each member. -/
def BlocksTell (blocks : Json) (value : List NanoPendingBlock) : Prop :=
  (blocks = .str [] ∧ value = []) ∨
    ∃ members told, blocks.members = some members ∧ List.Forall₂ MemberTells members told ∧
      told.Perm value

/-- A member is as it should be: an object with a source and with a decimal numeral
    for the amount, which is a number that Foundation represents. -/
def MemberInOrder (member : Str × Json) : Prop :=
  ∃ amount source n, member.2.stringMember (text "amount") = some amount ∧
    member.2.stringMember (text "source") = some source ∧ parseDigits 10 amount = some n ∧
    Represented n

variable (nf) in
/-- The member `blocks` of a response is as it should be: the empty string, or an object
    whose members are, and whose keys Swift tells apart. -/
def BlocksInOrder (blocks : Json) : Prop :=
  blocks = .str [] ∨ ∃ members, blocks.members = some members ∧ (∀ m ∈ members, MemberInOrder m) ∧
    (nf.keys members).Nodup

/-- Number formatters read a string of ASCII digits as what it denotes, if that is a
    number they can return. -/
def Locale.ReadsNumerals (l : Locale) : Prop :=
  ∀ s (n : ℕ), parseDigits 10 s = some n → Represented n → ∃ v ∈ l.number s, v.value = n

theorem Locale.posix_readsNumerals : Locale.posix.ReadsNumerals := fun s n hs hn => by
  change ∃ v ∈ (parseDigits 10 s).bind NSDecimalNumber.ofNat, _
  rw [hs]
  exact NSDecimalNumber.value_ofNat hn

variable {l : Locale} {order order' : DictionaryOrder nf} {net : Network} {node : NanoNode}

/-- An amount that is read is represented, zero for one that cannot be read included. -/
theorem represented_ofRaw (l : Locale) (raw : Str) :
    Represented (NanoAmount.ofRaw l raw).rawAmount := by
  rw [NanoAmount.ofRaw]
  cases l.number raw with
  | some v => exact ⟨v, rfl⟩
  | none => exact ⟨⟨false, 0, 0⟩, by simp [NSDecimalNumber.value]⟩

/-- Members that tell something decode. -/
theorem memberReads_of_tells {members : List (Str × Json)} {told : List NanoPendingBlock}
    (h : List.Forall₂ MemberTells members told) : ∀ m ∈ members, MemberReads m := by
  induction h with
  | nil => simp
  | cons hone _ ih =>
    obtain ⟨_, hsource, amount, _, hamount, _⟩ := hone
    exact List.forall_mem_cons.2 ⟨⟨by rw [hamount]; rfl, by rw [hsource]; rfl⟩, ih⟩

/-- Members that are as they should be decode to entries that tell the same. -/
theorem exists_decodes (hl : l.ReadsNumerals) {members : List (Str × Json)}
    (h : ∀ m ∈ members, MemberInOrder m) :
    ∃ made, List.Forall₂ MemberDecodes members made ∧
      List.Forall₂ MemberTells members (made.map (pendingBlock l)) := by
  induction members with
  | nil => exact ⟨[], .nil, .nil⟩
  | cons member members ih =>
    obtain ⟨made, hmade, htells⟩ := ih fun m hm => h m (List.mem_cons_of_mem _ hm)
    obtain ⟨amount, source, n, hamount, hsource, hn, hrepresented⟩ := h member List.mem_cons_self
    obtain ⟨v, hv, hvalue⟩ := hl amount n hn hrepresented
    refine ⟨(member.1, ⟨amount, source⟩) :: made, .cons ⟨rfl, hamount, hsource⟩ hmade,
      .cons ⟨rfl, hsource, amount, n, hamount, hn, ?_⟩ htells⟩
    rw [pendingBlock, NanoAmount.ofRaw, Option.mem_def.1 hv]
    exact congrArg NanoAmount.mk hvalue

/-- The blocks of a dictionary are those a response tells if and only if its member
    `blocks` is as it should be. -/
theorem blocksTell_iff (hl : l.ReadsNumerals) (blocks : Json) :
    BlocksTell blocks ((order.entries ((jsonBlocks blocks).getD [])).map (pendingBlock l)) ↔
      BlocksInOrder nf blocks := by
  constructor
  · rintro (⟨hempty, _⟩ | ⟨members, told, hmembers, htells, hperm⟩)
    · exact .inl hempty
    obtain ⟨made, hmade⟩ := exists_decodes_iff.2 (memberReads_of_tells htells)
    rw [jsonBlocks_eq_some.2 ⟨members, hmembers, hmade⟩, Option.getD_some] at hperm
    refine .inr ⟨members, hmembers, fun m hm => ?_, ?_⟩
    · -- What a numeral denotes is represented, as it has been read.
      obtain ⟨i, hi, rfl⟩ := List.getElem_of_mem hm
      have hi' : i < told.length := htells.length_eq ▸ hi
      obtain ⟨_, hsource, amount, n, hamount, hn, heq⟩ := htells.get hi hi'
      obtain ⟨entry, _, hentry⟩ := List.mem_map.1 (hperm.subset (List.getElem_mem hi'))
      refine ⟨amount, _, n, hamount, hsource, hn, ?_⟩
      have hrepresented := represented_ofRaw l entry.2.amount
      rwa [show NanoAmount.ofRaw l entry.2.amount = ⟨n⟩ from
        (congrArg NanoPendingBlock.amount hentry).trans heq] at hrepresented
    · -- No member is lost, so that all keys are different.
      rw [← keys_of_decodes hmade]
      refine order.nodup_of_length_entries ?_
      rw [← hmade.length_eq, htells.length_eq, hperm.length_eq, List.length_map]
  · rintro (rfl | ⟨members, hmembers, hinOrder, hnodup⟩)
    · -- A string is no dictionary.
      exact .inl ⟨rfl, by simp [jsonBlocks, Json.members]⟩
    · obtain ⟨made, hmade, htells⟩ := exists_decodes hl hinOrder
      refine .inr ⟨members, _, hmembers, htells, ?_⟩
      rw [jsonBlocks_eq_some.2 ⟨members, hmembers, hmade⟩, Option.getD_some]
      exact ((order.entries_perm (keys_of_decodes hmade ▸ hnodup)).map _).symm

/-! ## Asking for pending blocks -/

variable (l order order' net node) in
/-- Asking for pending blocks ends in an error, or in those that `blocks` tells, in
    both forms. -/
def PendingRight (account : NanoAccount) (threshold : NanoAmount)
    (includeOnlyConfirmed includeActive : Bool) (past : List Json) (blocks : Json) : Prop :=
  ((∃ e, getPendingBlocks l order net node account threshold includeOnlyConfirmed includeActive
      past = .throws e) ∨
    ∃ value past', getPendingBlocks l order net node account threshold includeOnlyConfirmed
      includeActive past = .returns (value, past') ∧ BlocksTell blocks value) ∧
  ((∃ e, (Completion.getPendingBlocks net node l order' account threshold includeOnlyConfirmed
      includeActive (fun value error => [(value, error)]) past).1 = [(none, some e)]) ∨
    ∃ value, (Completion.getPendingBlocks net node l order' account threshold includeOnlyConfirmed
      includeActive (fun value error => [(value, error)]) past).1 = [(some value, none)] ∧
      BlocksTell blocks value)

/-- A response with a member `blocks` always decodes, to the blocks of its dictionary. -/
theorem nanoPendingResponse_of_member {response blocks : Json}
    (hblocks : response.member (text "blocks") = some blocks) :
    nanoPendingResponse l order response =
      some ((order.entries ((jsonBlocks blocks).getD [])).map (pendingBlock l)) := by
  cases response with
  | obj members => simp [nanoPendingResponse, Json.members, hblocks]
  | str s => cases hblocks
  | other => cases hblocks

/-- What is returned is no error, and so it must be told. -/
theorem PendingRight.blocksTell {account : NanoAccount} {threshold : NanoAmount}
    {includeOnlyConfirmed includeActive : Bool} {past past' : List Json} {blocks : Json}
    {value : List NanoPendingBlock}
    (h : PendingRight l order order' net node account threshold includeOnlyConfirmed includeActive
      past blocks)
    (hreturns : getPendingBlocks l order net node account threshold includeOnlyConfirmed
      includeActive past = .returns (value, past')) : BlocksTell blocks value := by
  rcases h.1 with ⟨e, hthrows⟩ | ⟨value', _, hvalue, htells⟩
  · cases hthrows.symm.trans hreturns
  · obtain ⟨rfl, _⟩ := Prod.mk.inj (Outcome.returns.inj (hvalue.symm.trans hreturns))
    exact htells

/-- Where a node answers with a member `blocks`, asking for pending blocks ends right,
    in both forms, if and only if that is the empty string or an object whose keys Swift
    tells apart, and all members of which are objects with a source and a decimal numeral
    for the amount that denotes a number Foundation represents. -/
theorem pendingRight_iff (hl : l.ReadsNumerals) {account : NanoAccount} {threshold : NanoAmount}
    {includeOnlyConfirmed includeActive : Bool} {past : List Json} {response blocks : Json}
    (h : Answered l net node
      (.getPendingBlocks account threshold includeOnlyConfirmed includeActive) past response)
    (hblocks : response.member (text "blocks") = some blocks) :
    PendingRight l order order' net node account threshold includeOnlyConfirmed includeActive past
      blocks ↔ BlocksInOrder nf blocks := by
  obtain ⟨hasync, hcompletion⟩ := h.ends order order' rfl
  simp only [decodeResponse, nanoPendingResponse_of_member hblocks] at hasync hcompletion
  refine ⟨fun hright => (blocksTell_iff hl blocks).1 (hright.blocksTell hasync), fun hinOrder => ?_⟩
  exact ⟨.inr ⟨_, _, hasync, (blocksTell_iff hl blocks).2 hinOrder⟩,
    .inr ⟨_, hcompletion, (blocksTell_iff hl blocks).2 hinOrder⟩⟩

/-- One pending block. -/
theorem pendingRight_one :
    PendingRight .posix (.given .kelvin) (.given .kelvin)
      (.saying (.obj [(text "blocks", .obj
        [(text "A", .obj [(text "amount", .str (text "12")), (text "source", .str (text "S"))])])]))
      ⟨[]⟩ zeroAccount ⟨0⟩ true false []
      (.obj [(text "A",
        .obj [(text "amount", .str (text "12")), (text "source", .str (text "S"))])]) := by
  refine (pendingRight_iff Locale.posix_readsNumerals (answered_saying _ _ _ _ _) rfl).2 (.inr ?_)
  refine ⟨_, rfl, fun m hm => ?_, List.nodup_singleton _⟩
  obtain rfl := List.mem_singleton.1 hm
  exact ⟨_, _, 12, rfl, rfl, rfl, represented_natCast_iff.2 ⟨0, by decide, by norm_num, by simp⟩⟩

/-- Where a node says that `blocks` are pending, asking for them ends right. -/
def RightSaying (blocks : Json) : Prop :=
  PendingRight .posix (.given .kelvin) (.given .kelvin) (.saying (.obj [(text "blocks", blocks)]))
    ⟨[]⟩ zeroAccount ⟨0⟩ true false [] blocks

/-- Then the blocks are as they should be. -/
theorem RightSaying.inOrder {blocks : Json} (h : RightSaying blocks) :
    BlocksInOrder .kelvin blocks := by
  have htells : BlocksTell blocks
      (((DictionaryOrder.given .kelvin).entries ((jsonBlocks blocks).getD [])).map
        (pendingBlock .posix)) := PendingRight.blocksTell h rfl
  exact (blocksTell_iff Locale.posix_readsNumerals blocks).1 htells

/-- The members of an object that is as it should be. -/
theorem BlocksInOrder.of_obj {members : List (Str × Json)}
    (h : BlocksInOrder nf (.obj members)) : ∃ kept, (Json.obj members).members = some kept ∧
      (∀ m ∈ kept, MemberInOrder m) ∧ (nf.keys kept).Nodup := by
  rcases h with hstr | hkept
  · cases hstr
  · exact hkept

/-- A member with an amount and the source `S`. -/
def memberOfAmount (key : Str) (amount : Json) : Str × Json :=
  (key, .obj [(text "amount", amount), (text "source", .str (text "S"))])

/-- One block whose amount is a number takes the other one with it, and one whose amount
    is no numeral is worth nothing; of a numeral with too many digits, some are lost, and
    of two hashes that are one letter K and one Kelvin sign, a block. -/
theorem not_pendingRight_amount :
    ¬RightSaying (.obj
      [memberOfAmount (text "A") (.str (text "12")), memberOfAmount (text "B") .other]) ∧
    ¬RightSaying (.obj [memberOfAmount (text "A") (.str (text "1.2e"))]) ∧
    ¬RightSaying (.obj [memberOfAmount (text "A")
      (.str (text "1" ++ List.replicate 48 (.scalar '0') ++ text "1"))]) ∧
    ¬RightSaying (.obj [memberOfAmount (text "K") (.str (text "12")),
      memberOfAmount [.scalar '\u212a'] (.str (text "34"))]) := by
  refine ⟨fun h => ?_, fun h => ?_, fun h => ?_, fun h => ?_⟩ <;>
    obtain ⟨members, hmembers, hall, hkeys⟩ := h.inOrder.of_obj <;>
    obtain rfl := Option.some.inj hmembers
  · obtain ⟨_, _, _, hamount, _⟩ := hall _ (List.mem_cons_of_mem _ List.mem_cons_self)
    cases hamount
  · obtain ⟨_, _, _, hamount, _, hn, _⟩ := hall _ List.mem_cons_self
    obtain rfl := Option.some.inj hamount
    cases hn
  · obtain ⟨_, _, n, hamount, _, hn, hrepresented⟩ := hall _ List.mem_cons_self
    obtain rfl := Option.some.inj hamount
    have hnumeral : parseDigits 10 (text "1" ++ List.replicate 48 (.scalar '0') ++ text "1") =
        some (10 ^ 49 + 1) := by decide +kernel
    obtain rfl := Option.some.inj (hnumeral.symm.trans hn)
    -- There is no zero at the end.
    obtain ⟨k, _, hlt, hdvd⟩ := represented_natCast_iff.1 hrepresented
    obtain rfl : k = 0 := by
      by_contra hk
      exact absurd ((dvd_pow_self 10 hk).trans hdvd) (by norm_num)
    norm_num at hlt
  · exact absurd hkeys (by decide +kernel)

end NanoSwift
