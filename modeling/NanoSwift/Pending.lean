import NanoSwift.NodeForms

/-!
# Receiving all pending blocks

The documented loop over the pending blocks of an account (`receiveAll`): for
each, a receive block is built, work is generated for the account, and the block
is published. The loop ends early with the first call that does not return.

No call changes the account, so that every block built follows the block that was
the last one before the loop, and has the balance of that time and one amount
(`receiveAll_blocks`). A loop that is not ended early thus forks from the second
block on (`receiveAll_forks`): all pending blocks are received in a chain if and only
if there is none, or a single one, which the texts allow and the node answers
(`receiveAll_receives_iff`).
-/

namespace NanoSwift

/-- The errors of the loop. -/
inductive ReceiveError
  | block (e : NanoBlockManagerError)
  | request (e : RequestError)
  deriving DecidableEq

variable (mc : Monocypher) (l : Locale) (net : Network) (node : NanoNode)

/-- Generates work for the account, and with it publishes a receive block. -/
def publishReceive (account : NanoAccount) (receiveBlock : NanoStateBlock) : Call Unit := do
  let work ← generateWork net node account .receive
  publish net node l { receiveBlock with work := some work } .receive

/-- The blocks the loop over `pending` builds, after the requests `past`, and how
    it ends. -/
def receiveAll (account : NanoAccount) :
    (pending : List NanoPendingBlock) → (past : List Json) →
      List NanoStateBlock × Outcome ReceiveError Unit
  | [], _ => ([], .returns ())
  | block :: pending, past =>
    match receivePendingBlock mc l account block with
    | .throws e => ([], .throws (.block e))
    | .traps t => ([], .traps t)
    | .returns receiveBlock =>
      match publishReceive l net node account receiveBlock past with
      | .throws e => ([receiveBlock], .throws (.request e))
      | .traps t => ([receiveBlock], .traps t)
      | .returns ((), past) =>
        let rest := receiveAll account pending past
        (receiveBlock :: rest.1, rest.2)

/-! ## What is built -/

section Blocks

variable {account : NanoAccount} {info : NanoAccountInfo}

variable {mc l} in
/-- Receiving builds the block of the account with the amount added. -/
theorem receivePendingBlock_eq_returns (hinfo : account.accountInfo = some info)
    {p : NanoPendingBlock} {block : NanoStateBlock} :
    receivePendingBlock mc l account p = .returns block ↔
      ∃ message, unhashed l (accountBlock account info (account.balance l + p.amount) p.hash) =
          .returns message ∧
        block = signedBlock mc account
          (accountBlock account info (account.balance l + p.amount) p.hash) message := by
  rw [← hashAndSign_eq_returns]
  simp only [receivePendingBlock, receiveBlock, hinfo, Option.map_some, Outcome.guardLet_some,
    Outcome.returns_bind, accountBlock]

/-- The blocks built follow the frontier of the account, each with the balance of
    the account and its own amount. -/
theorem receiveAll_blocks (hinfo : account.accountInfo = some info)
    (pending : List NanoPendingBlock) (past : List Json) :
    ∃ received, received <+: pending ∧
      List.Forall₂ (fun p block => block.previous = info.frontier ∧
        block.balance = account.balance l + p.amount ∧ ∃ hash, block.hash = some hash) received
        (receiveAll mc l net node account pending past).1 := by
  induction pending generalizing past with
  | nil => exact ⟨[], List.nil_prefix, .nil⟩
  | cons p pending ih =>
    rw [receiveAll]
    cases hblock : receivePendingBlock mc l account p with
    | throws e => exact ⟨[], List.nil_prefix, .nil⟩
    | traps t => exact ⟨[], List.nil_prefix, .nil⟩
    | returns block =>
      obtain ⟨message, _, rfl⟩ := (receivePendingBlock_eq_returns hinfo).1 hblock
      have hone : [p] <+: p :: pending := ⟨pending, rfl⟩
      -- The block is built whether or not it gets published.
      dsimp only
      cases publishReceive l net node account _ past with
      | throws e => exact ⟨[p], hone, .cons ⟨rfl, rfl, _, rfl⟩ .nil⟩
      | traps t => exact ⟨[p], hone, .cons ⟨rfl, rfl, _, rfl⟩ .nil⟩
      | returns result =>
        obtain ⟨received, hprefix, hall⟩ := ih result.2
        exact ⟨p :: received, List.cons_prefix_cons.2 ⟨rfl, hprefix⟩, .cons ⟨rfl, rfl, _, rfl⟩ hall⟩

/-- The blocks built all follow the same one. -/
theorem receiveAll_previous (hinfo : account.accountInfo = some info)
    (pending : List NanoPendingBlock) (past : List Json) :
    (receiveAll mc l net node account pending past).1.map NanoStateBlock.previous =
      List.replicate (receiveAll mc l net node account pending past).1.length info.frontier := by
  obtain ⟨received, hprefix, hall⟩ := receiveAll_blocks mc l net node hinfo pending past
  clear hprefix
  generalize (receiveAll mc l net node account pending past).1 = blocks at hall ⊢
  induction hall with
  | nil => rfl
  | cons h _ ih => rw [List.map_cons, h.1, ih, List.length_cons, List.replicate_succ]

section Ends

variable {mc l net node}

/-- The first round of the loop, where the pending block is received and published. -/
theorem receiveAll_cons_of_returns {p : NanoPendingBlock} {pending : List NanoPendingBlock}
    {past past' : List Json} {block : NanoStateBlock}
    (hblock : receivePendingBlock mc l account p = .returns block)
    (hpublish : publishReceive l net node account block past = .returns ((), past')) :
    receiveAll mc l net node account (p :: pending) past =
      (block :: (receiveAll mc l net node account pending past').1,
        (receiveAll mc l net node account pending past').2) := by
  rw [receiveAll, hblock]
  dsimp only
  rw [hpublish]

/-- The loop gets to the end where the first pending block is received and published,
    and it gets there from the next one. -/
theorem receiveAll_cons_ends_iff {p : NanoPendingBlock} {pending : List NanoPendingBlock}
    {past : List Json} :
    (receiveAll mc l net node account (p :: pending) past).2 = .returns () ↔
      ∃ block past', receivePendingBlock mc l account p = .returns block ∧
        publishReceive l net node account block past = .returns ((), past') ∧
        (receiveAll mc l net node account pending past').2 = .returns () := by
  constructor
  · intro h
    rw [receiveAll] at h
    cases hblock : receivePendingBlock mc l account p with
    | throws e => simp [hblock] at h
    | traps t => simp [hblock] at h
    | returns block =>
      simp only [hblock] at h
      cases hpublish : publishReceive l net node account block past with
      | throws e => simp [hpublish] at h
      | traps t => simp [hpublish] at h
      | returns result =>
        simp only [hpublish] at h
        exact ⟨block, result.2, rfl, hpublish, h⟩
  · rintro ⟨block, past', hblock, hpublish, hrest⟩
    rw [receiveAll_cons_of_returns hblock hpublish]
    exact hrest

/-- A loop that is not ended early builds a block for every pending one. -/
theorem length_receiveAll {pending : List NanoPendingBlock} {past : List Json}
    (h : (receiveAll mc l net node account pending past).2 = .returns ()) :
    (receiveAll mc l net node account pending past).1.length = pending.length := by
  induction pending generalizing past with
  | nil => rfl
  | cons p pending ih =>
    obtain ⟨block, past', hblock, hpublish, hrest⟩ := receiveAll_cons_ends_iff.1 h
    rw [receiveAll_cons_of_returns hblock hpublish, List.length_cons, ih hrest, List.length_cons]

end Ends

/-- A loop that is not ended early builds blocks that all follow the same one. -/
theorem receiveAll_forks (hinfo : account.accountInfo = some info)
    {pending : List NanoPendingBlock} {past : List Json}
    (h : (receiveAll mc l net node account pending past).2 = .returns ()) :
    (receiveAll mc l net node account pending past).1.map NanoStateBlock.previous =
      List.replicate pending.length info.frontier := by
  rw [receiveAll_previous mc l net node hinfo, length_receiveAll h]

end Blocks

/-! ## Chains -/

/-- The blocks receive the pending ones, each following the one before it, the first of
    them `previous`, and adding its amount to the balance before it. -/
def Chained :
    (previous : Str) → (balance : NanoAmount) → List NanoPendingBlock → List NanoStateBlock → Prop
  | _, _, [], [] => True
  | previous, balance, p :: pending, block :: blocks =>
    block.previous = previous ∧ block.balance = balance + p.amount ∧
      ∃ hash, block.hash = some hash ∧ Chained (hexString hash) (balance + p.amount) pending blocks
  | _, _, _, _ => False

/-- What receiving all pending blocks should come to: it is not ended early, and the
    blocks built are a chain without forks, the last block of which has all amounts. -/
structure ReceivesAll (previous : Str) (balance : NanoAmount) (pending : List NanoPendingBlock)
    (run : List NanoStateBlock × Outcome ReceiveError Unit) : Prop where
  ends : run.2 = .returns ()
  chained : Chained previous balance pending run.1
  no_fork : (run.1.map NanoStateBlock.previous).Nodup
  credited : ∀ block ∈ run.1.getLast?,
    block.balance = pending.foldl (fun total p => total + p.amount) balance

/-! ## What a node is asked -/

/-- The block by which an account with the balance `b` receives a pending block, if its
    texts are accepted. -/
def receivedBlock (account : NanoAccount) (info : NanoAccountInfo) (b : ℕ)
    (p : NanoPendingBlock) : NanoStateBlock :=
  signedBlock mc account (accountBlock account info (⟨b⟩ + p.amount) p.hash)
    (messageOf l (accountBlock account info (⟨b⟩ + p.amount) p.hash))

/-- The request for work to receive a block with. -/
def receiveWorkRequest (info : NanoAccountInfo) : Json :=
  .obj
    [(text "action", .str (text "work_generate")),
      (text "difficulty", .str (text "fffffe0000000000")),
      (text "hash", .str info.frontier)]

/-- A response tells work: it has four members that are strings. -/
def TellsWork (response : Json) (work : Str) : Prop :=
  response.stringMember (text "work") = some work ∧
    ∀ key ∈ [text "difficulty", text "multiplier", text "hash"],
      (response.stringMember key).isSome

/-- The request that publishes the block by which an account with the balance `b`
    receives a pending block. -/
def receiveRequest (account : NanoAccount) (info : NanoAccountInfo) (b : ℕ)
    (p : NanoPendingBlock) (work : Str) : Json :=
  let hash := mc.crypto_blake2b_general 32
    (messageOf l (accountBlock account info (⟨b⟩ + p.amount) p.hash))
  .obj
    [(text "action", .str (text "process")),
      (text "json_block", .str (text "true")),
      (text "subtype", .str (text "receive")),
      (text "block", .obj
        [(text "type", .str (text "state")),
          (text "account", .str account.publicAddress),
          (text "previous", .str info.frontier),
          (text "representative", .str info.representative),
          (text "balance", .str ((⟨b⟩ + p.amount : NanoAmount).rawString l)),
          (text "link", .str p.hash),
          (text "signature", .str (hexString (signStateBlockHash mc hash account.privateKey))),
          (text "work", .str work)])]

/-- After the requests `past`, the node answers what is asked to receive a pending block:
    with work, and then with anything to the block published with that work. -/
def AnswersReceive (account : NanoAccount) (info : NanoAccountInfo) (b : ℕ)
    (p : NanoPendingBlock) (past : List Json) : Prop :=
  ∃ data response work published,
    net.Answers node past (receiveWorkRequest info) data ∧ net.json data = some response ∧
    TellsWork response work ∧
    net.Answers node (receiveWorkRequest info :: past) (receiveRequest mc l account info b p work)
      published

section Chains

variable {mc l net node} {account : NanoAccount} {info : NanoAccountInfo}
  {frontier representative : Bytes} {b : ℕ}

/-- A pending block is received if its hash and the address of the account are accepted. -/
theorem receivePendingBlock_iff (hinfo : account.accountInfo = some info)
    (htells : info.Tells mc frontier representative b) {p : NanoPendingBlock}
    {block : NanoStateBlock} :
    receivePendingBlock mc l account p = .returns block ↔
      (Accepted account.publicAddress ∧ Accepted p.hash) ∧
        block = receivedBlock mc l account info b p := by
  rw [receivePendingBlock_eq_returns hinfo, htells.balance l hinfo]
  simp only [unhashed_accountBlock_iff l htells]
  constructor
  · rintro ⟨_, ⟨haccepted, rfl⟩, hblock⟩
    exact ⟨haccepted, hblock⟩
  · rintro ⟨haccepted, hblock⟩
    exact ⟨_, ⟨haccepted, rfl⟩, hblock⟩

theorem nanoWorkGenerateResponse_eq_some {response : Json} {work : Str} :
    nanoWorkGenerateResponse response = some work ↔ TellsWork response work := by
  simp only [nanoWorkGenerateResponse, TellsWork, Json.stringMember, Option.bind_eq_bind,
    Option.bind_eq_some_iff, Option.isSome_iff_exists, List.forall_mem_cons, Option.pure_def,
    Option.some.injEq]
  constructor
  · rintro ⟨w, hw, _, hwork, d, hd, _, hdifficulty, m, hm, _, hmultiplier, h, hh, _, hhash, rfl⟩
    exact ⟨⟨w, hw, hwork⟩, ⟨_, d, hd, hdifficulty⟩, ⟨_, m, hm, hmultiplier⟩, ⟨_, h, hh, hhash⟩,
      List.forall_mem_nil _⟩
  · rintro ⟨⟨w, hw, hwork⟩, ⟨_, d, hd, hdifficulty⟩, ⟨_, m, hm, hmultiplier⟩, ⟨_, h, hh, hhash⟩, _⟩
    exact ⟨w, hw, _, hwork, d, hd, _, hdifficulty, m, hm, _, hmultiplier, h, hh, _, hhash, rfl⟩

/-- Publishing with work returns exactly where the node answers both requests. -/
theorem exists_publishReceive_iff (hinfo : account.accountInfo = some info)
    (p : NanoPendingBlock) (past : List Json) :
    (∃ result, publishReceive l net node account (receivedBlock mc l account info b p) past =
        .returns result) ↔ AnswersReceive mc l net node account info b p past := by
  have hwork : ∀ work past', generateWork net node account .receive past = .returns (work, past') ↔
      _ := fun work past' =>
    @NodeCall.async_eq_returns l .kelvin (.given .kelvin) net node (.generateWork account .receive)
      past past' work
  have hpublish : ∀ block past past',
      publish net node l block .receive past = .returns ((), past') ↔ _ := fun block past past' =>
    @NodeCall.async_eq_returns l .kelvin (.given .kelvin) net node (.publish block .receive)
      past past' ()
  have hbody : (NodeCall.generateWork account .receive).body l =
      .returns (receiveWorkRequest info) := by
    simp only [NodeCall.body, generateWorkBody, hinfo]
    rfl
  have hbody' : ∀ work, (NodeCall.publish
      { receivedBlock mc l account info b p with work := some work } .receive).body l =
        .returns (receiveRequest mc l account info b p work) := fun _ => rfl
  constructor
  · rintro ⟨⟨_, past'⟩, h⟩
    obtain ⟨⟨work, past''⟩, hreturns, h⟩ := Outcome.bind_eq_returns.1 h
    obtain ⟨body, data, hb, hanswers, hdecode, rfl⟩ := (hwork work past'').1 hreturns
    obtain rfl := Outcome.returns.inj (hbody.symm.trans hb)
    obtain ⟨response, hjson, hresponse⟩ := Option.bind_eq_some_iff.1 hdecode
    obtain ⟨body', published, hb', hanswers', _, _⟩ := (hpublish _ _ past').1 h
    obtain rfl := Outcome.returns.inj ((hbody' work).symm.trans hb')
    exact ⟨data, response, work, published, hanswers, hjson,
      nanoWorkGenerateResponse_eq_some.1 hresponse, hanswers'⟩
  · rintro ⟨data, response, work, published, hanswers, hjson, htold, hanswers'⟩
    have hdecode : (net.json data).bind nanoWorkGenerateResponse = some work := by
      rw [hjson, Option.bind_some, nanoWorkGenerateResponse_eq_some.2 htold]
    refine ⟨((), receiveRequest mc l account info b p work :: receiveWorkRequest info :: past),
      Outcome.bind_eq_returns.2 ⟨(work, receiveWorkRequest info :: past), ?_, ?_⟩⟩
    · exact (hwork work _).2 ⟨_, data, hbody, hanswers, hdecode, rfl⟩
    · exact (hpublish _ _ _).2 ⟨_, published, hbody' work, hanswers', rfl, rfl⟩

/-- The loop gets to the end of a single pending block if its texts are accepted and the
    node answers. -/
theorem receiveAll_single_ends_iff (hinfo : account.accountInfo = some info)
    (htells : info.Tells mc frontier representative b) (p : NanoPendingBlock) (past : List Json) :
    (receiveAll mc l net node account [p] past).2 = .returns () ↔
      Accepted account.publicAddress ∧ Accepted p.hash ∧
        AnswersReceive mc l net node account info b p past := by
  rw [← exists_publishReceive_iff hinfo, ← and_assoc, receiveAll_cons_ends_iff]
  constructor
  · rintro ⟨block, past', hblock, hpublish, _⟩
    obtain ⟨haccepted, rfl⟩ := (receivePendingBlock_iff hinfo htells).1 hblock
    exact ⟨haccepted, _, hpublish⟩
  · rintro ⟨haccepted, ⟨_, past'⟩, hpublish⟩
    exact ⟨_, past', (receivePendingBlock_iff hinfo htells).2 ⟨haccepted, rfl⟩, hpublish, rfl⟩

/-- A single pending block is received if the loop gets to the end. -/
theorem receivesAll_single (hinfo : account.accountInfo = some info)
    (htells : info.Tells mc frontier representative b) {p : NanoPendingBlock} {past : List Json}
    (h : (receiveAll mc l net node account [p] past).2 = .returns ()) :
    ReceivesAll info.frontier ⟨b⟩ [p] (receiveAll mc l net node account [p] past) := by
  obtain ⟨received, hprefix, hall⟩ := receiveAll_blocks mc l net node hinfo [p] past
  have hlength := length_receiveAll h
  generalize receiveAll mc l net node account [p] past = run at h hall hlength ⊢
  obtain ⟨blocks, outcome⟩ := run
  obtain rfl := hprefix.eq_of_length (hall.length_eq.trans hlength)
  cases hall with
  | cons hone hrest =>
    cases hrest
    obtain ⟨hprevious, hbalance, hash, hhash⟩ := hone
    rw [htells.balance l hinfo] at hbalance
    refine ⟨h, ⟨hprevious, hbalance, hash, hhash, trivial⟩, List.nodup_singleton _, ?_⟩
    rintro block' ⟨⟩
    exact hbalance

end Chains

/-- For an account whose information is in order, the documented loop receives all
    pending blocks in a chain if and only if there is none, or a single one, the hash of
    which and the address of the account are accepted, and the node answers the two
    requests of its round. -/
theorem receiveAll_receives_iff {account : NanoAccount} {info : NanoAccountInfo}
    {frontier representative : Bytes} {b : ℕ} (hinfo : account.accountInfo = some info)
    (htells : info.Tells mc frontier representative b) (pending : List NanoPendingBlock)
    (past : List Json) :
    ReceivesAll info.frontier ⟨b⟩ pending (receiveAll mc l net node account pending past) ↔
      pending = [] ∨ ∃ p, pending = [p] ∧ Accepted account.publicAddress ∧ Accepted p.hash ∧
        AnswersReceive mc l net node account info b p past := by
  constructor
  · intro h
    -- All blocks follow the same one, so that two of them are a fork.
    have hnodup := h.no_fork
    rw [receiveAll_forks mc l net node hinfo h.ends, List.nodup_replicate] at hnodup
    rcases pending with _ | ⟨p, _ | ⟨p', pending⟩⟩
    · exact .inl rfl
    · exact .inr ⟨p, rfl, (receiveAll_single_ends_iff hinfo htells p past).1 h.ends⟩
    · simp at hnodup
  · rintro (rfl | ⟨p, rfl, hends⟩)
    · exact ⟨rfl, trivial, List.nodup_nil, by simp [receiveAll]⟩
    · have hreturns := (receiveAll_single_ends_iff hinfo htells p past).2 hends
      exact receivesAll_single hinfo htells hreturns

/-- A network that answers every request with the same work. -/
def Network.answering : Network where
  url _ := true
  upload _ _ _ :=
    .ok { statusCode := some 200, mimeType := some (text "application/json"), data := [] }
  json _ := some (.obj [(text "work", .str (text "2bf29ef00786a6bc")),
    (text "difficulty", .str (text "fffffe0000000000")), (text "multiplier", .str (text "1.0")),
    (text "hash", .str (List.replicate 64 (.scalar '0')))])

theorem Network.answering_answers (past : List Json) (body : Json) :
    Network.answering.Answers ⟨[]⟩ past body [] :=
  ⟨_, rfl, rfl, ⟨200, rfl, by decide, by decide⟩, rfl, rfl⟩

/-- It answers whatever is asked to receive a pending block. -/
theorem answersReceive_answering (account : NanoAccount) (info : NanoAccountInfo) (b : ℕ)
    (p : NanoPendingBlock) (past : List Json) :
    AnswersReceive .reversing .posix .answering ⟨[]⟩ account info b p past :=
  ⟨[], _, _, [], Network.answering_answers _ _, rfl, ⟨rfl, by decide⟩,
    Network.answering_answers _ _⟩

/-- On it, the loop gets to the end if all hashes are accepted. -/
theorem receiveAll_answering_ends {account : NanoAccount} {info : NanoAccountInfo}
    {frontier representative : Bytes} {b : ℕ} (hinfo : account.accountInfo = some info)
    (htells : info.Tells .reversing frontier representative b)
    (haccount : Accepted account.publicAddress) {pending : List NanoPendingBlock}
    (h : ∀ p ∈ pending, Accepted p.hash) (past : List Json) :
    (receiveAll .reversing .posix .answering ⟨[]⟩ account pending past).2 = .returns () := by
  induction pending generalizing past with
  | nil => rfl
  | cons p pending ih =>
    obtain ⟨hp, hrest⟩ := List.forall_mem_cons.1 h
    obtain ⟨⟨_, past'⟩, hpublish⟩ := (exists_publishReceive_iff hinfo p past).2
      (answersReceive_answering account info b p past)
    exact receiveAll_cons_ends_iff.2 ⟨_, past',
      (receivePendingBlock_iff hinfo htells).2 ⟨⟨haccount, hp⟩, rfl⟩, hpublish, ih hrest past'⟩

theorem accepted_zeroSender : Accepted zeroSender.publicAddress :=
  (isKeyText_iff.2 ⟨_, denotes_of_keyAddress rfl zeroSender_created.publicAddress_eq⟩).accepted

/-- A single pending block is received. -/
theorem receiveAll_receives_one :
    ReceivesAll (zeroInfo 7).frontier ⟨(7 : ℕ)⟩ [⟨List.replicate 64 (.scalar 'A'), ⟨1⟩, []⟩]
      (receiveAll .reversing .posix .answering ⟨[]⟩ zeroSender
        [⟨List.replicate 64 (.scalar 'A'), ⟨1⟩, []⟩] []) :=
  (receiveAll_receives_iff .reversing .posix .answering ⟨[]⟩ zeroSender_accountInfo
    (zeroInfo_tells (b := 7) (by norm_num)) _ []).2
      (.inr ⟨_, rfl, accepted_zeroSender, .inr (by decide), answersReceive_answering _ _ _ _ _⟩)

/-- Two pending blocks are both received and published, the second as a fork of the first. -/
theorem not_receiveAll_receives_two :
    (receiveAll .reversing .posix .answering ⟨[]⟩ zeroSender
      [⟨List.replicate 64 (.scalar 'A'), ⟨1⟩, []⟩, ⟨List.replicate 64 (.scalar 'B'), ⟨2⟩, []⟩]
      []).2 = .returns () ∧
    ¬ReceivesAll (zeroInfo 7).frontier ⟨(7 : ℕ)⟩
      [⟨List.replicate 64 (.scalar 'A'), ⟨1⟩, []⟩, ⟨List.replicate 64 (.scalar 'B'), ⟨2⟩, []⟩]
      (receiveAll .reversing .posix .answering ⟨[]⟩ zeroSender
        [⟨List.replicate 64 (.scalar 'A'), ⟨1⟩, []⟩, ⟨List.replicate 64 (.scalar 'B'), ⟨2⟩, []⟩]
        []) := by
  have haccepted : ∀ p ∈ ([⟨List.replicate 64 (.scalar 'A'), ⟨1⟩, []⟩,
      ⟨List.replicate 64 (.scalar 'B'), ⟨2⟩, []⟩] : List NanoPendingBlock), Accepted p.hash := by
    simp only [List.forall_mem_cons]
    exact ⟨.inr (by decide), .inr (by decide), nofun⟩
  have hends := receiveAll_answering_ends zeroSender_accountInfo
    (zeroInfo_tells (b := 7) (by norm_num)) accepted_zeroSender haccepted []
  refine ⟨hends, fun h => ?_⟩
  have hnodup := h.no_fork
  rw [receiveAll_forks _ _ _ _ zeroSender_accountInfo hends, List.nodup_replicate] at hnodup
  exact absurd hnodup (by decide)

end NanoSwift
