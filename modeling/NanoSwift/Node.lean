import NanoSwift.Block

/-!
# Nodes

The client of a node (`NanoNode`), as far as it generates work and publishes
blocks. A call makes at most one request, by `rpcRequest`; the network is
Foundation's (`Network`), and what it answers may depend on all requests made
before.

The balance of a block is printed twice in the current locale: for hashing, and
for the request that publishes the block. Both are the decimal numeral of the
balance exactly where its digits are printed as ASCII digits
(`localeIndependent_iff`).
-/

namespace NanoSwift

/-! ## Requests and responses -/

/-- A JSON value: a string, an object, or something else, which no request has and
    no response is read for. -/
inductive Json
  | str (s : Str)
  | obj (members : List (Str × Json))
  | other

/-- The member of an object with the key `key`. -/
def Json.member (key : Str) : Json → Option Json
  | obj members => (members.find? (·.1 = key)).map (·.2)
  | _ => none

/-- A value that is a string. -/
def Json.string : Json → Option Str
  | str s => some s
  | _ => none

/-- A response, of a status if the server speaks HTTP. -/
structure Response where
  statusCode : Option ℤ
  mimeType : Option Str
  data : Bytes

/-- The network as Foundation offers it. -/
structure Network where
  /-- Whether a string is a URL. -/
  url : Str → Bool
  /-- What comes of uploading a body to an address after the requests `past`, the
      last one first: a response, or else the code of an error. -/
  upload : (address : Str) → (past : List Json) → (body : Json) → Except ℤ Response
  /-- The JSON value that some data denotes. -/
  json : Bytes → Option Json

/-- A node. -/
structure NanoNode where
  address : Str

/-- The errors of the client itself. -/
inductive NanoNodeError
  | invalidAddress
  | httpError
  | invalidMime
  | incompleteBlock
  | jsonError
  | accountInfoDoesNotExist
  | otherError
  deriving DecidableEq

/-- The errors of a request: the client's, those of the transport, and those of a
    decoder. -/
inductive RequestError
  | node (e : NanoNodeError)
  | transport (code : ℤ)
  | decoding
  deriving DecidableEq

/-- The kind of a transaction. -/
inductive NanoTransactionType
  | send
  | receive
  | «open»
  | change
  | epoch
  deriving DecidableEq

/-- The name of a kind of transactions. -/
def NanoTransactionType.rawValue : NanoTransactionType → Str
  | send => text "send"
  | receive => text "receive"
  | «open» => text "open"
  | change => text "change"
  | epoch => text "epoch"

/-- What work is generated for. -/
inductive NanoWorkType
  | all
  | receive
  | send
  deriving DecidableEq

/-- A call of the client: it may throw, and the requests it makes are added to
    those made before. -/
abbrev Call := StateT (List Json) (Outcome RequestError)

variable (net : Network) (node : NanoNode)

/-- The data of a node's response to a request. -/
def rpcRequest (body : Json) : Call Bytes := fun past => do
  Outcome.guardElse (net.url node.address) (.node .invalidAddress)
  match net.upload node.address past body with
  | .error code => .throws (.transport code)
  | .ok response =>
    Outcome.guardElse (∃ code ∈ response.statusCode, 200 ≤ code ∧ code ≤ 299) (.node .httpError)
    Outcome.guardElse (response.mimeType = some (text "application/json")) (.node .invalidMime)
    return (response.data, body :: past)

/-- After the requests `past`, a node answers a request with `data`: its address is a
    URL, and the response is one of success that is JSON by its type. -/
def Network.Answers (past : List Json) (body : Json) (data : Bytes) : Prop :=
  ∃ response, net.url node.address = true ∧
    net.upload node.address past body = .ok response ∧
    (∃ code ∈ response.statusCode, 200 ≤ code ∧ code ≤ 299) ∧
    response.mimeType = some (text "application/json") ∧ response.data = data

section rpcRequest

variable {net node} {past : List Json} {body : Json}

/-- A request returns the data it is answered with. -/
theorem rpcRequest_eq_returns {data : Bytes} {past' : List Json} :
    rpcRequest net node body past = .returns (data, past') ↔
      net.Answers node past body data ∧ past' = body :: past := by
  constructor
  · intro h
    simp only [rpcRequest, Outcome.bind_eq_returns, Outcome.guardElse_eq_returns] at h
    obtain ⟨_, hurl, h⟩ := h
    rcases hupload : net.upload node.address past body with code | response
    · rw [hupload] at h
      cases h
    · simp only [hupload, Outcome.bind_eq_returns, Outcome.guardElse_eq_returns,
        Outcome.pure_eq, Outcome.returns.injEq, Prod.mk.injEq] at h
      obtain ⟨_, hcode, _, hmime, hdata, hpast⟩ := h
      exact ⟨⟨response, hurl, hupload, hcode, hmime, hdata⟩, hpast.symm⟩
  · rintro ⟨⟨response, hurl, hupload, hcode, hmime, rfl⟩, rfl⟩
    simp only [rpcRequest, hurl, hupload, hcode, hmime, Outcome.guardElse_pos,
      Outcome.returns_bind, Outcome.pure_eq]

/-- It throws the error that its upload ends in. -/
theorem rpcRequest_of_error {code : ℤ} (hurl : net.url node.address = true)
    (hupload : net.upload node.address past body = .error code) :
    rpcRequest net node body past = .throws (.transport code) := by
  simp only [rpcRequest, hurl, Outcome.guardElse_pos, Outcome.returns_bind, hupload]

end rpcRequest

/-! ## Work -/

/-- The body of a request for work. -/
def generateWorkBody (account : NanoAccount) (type : NanoWorkType) : Outcome RequestError Json := do
  let info ← Outcome.guardLet account.accountInfo (.node .accountInfoDoesNotExist)
  return .obj
    [(text "action", .str (text "work_generate")),
      (text "difficulty", .str (if type = .send then text "fffffff800000000"
        else if type = .receive then text "fffffe0000000000" else text "ffffffc000000000")),
      (text "hash", .str info.frontier)]

/-- The work in a response: the response must have four members that are strings. -/
def nanoWorkGenerateResponse (response : Json) : Option Str := do
  let work ← (← response.member (text "work")).string
  let _difficulty ← (← response.member (text "difficulty")).string
  let _multiplier ← (← response.member (text "multiplier")).string
  let _hash ← (← response.member (text "hash")).string
  return work

/-- Generates work for the frontier of an account. -/
def generateWork (account : NanoAccount) (type : NanoWorkType) : Call Str := do
  let body ← generateWorkBody account type
  let data ← rpcRequest net node body
  let work ← Outcome.guardLet ((net.json data).bind nanoWorkGenerateResponse) RequestError.decoding
  return work

/-! ## Publishing -/

/-- The body of a request that publishes a block. -/
def publishBody (l : Locale) (block : NanoStateBlock) (type : NanoTransactionType) :
    Outcome RequestError Json := do
  let signature ← Outcome.guardLet (block.signature.map hexString) (.node .incompleteBlock)
  let work ← Outcome.guardLet block.work (.node .incompleteBlock)
  return .obj
    [(text "action", .str (text "process")),
      (text "json_block", .str (text "true")),
      (text "subtype", .str type.rawValue),
      (text "block", .obj
        [(text "type", .str (text "state")),
          (text "account", .str block.account),
          (text "previous", .str block.previous),
          (text "representative", .str block.representative),
          (text "balance", .str (block.balance.rawString l)),
          (text "link", .str block.link),
          (text "signature", .str signature),
          (text "work", .str work)])]

/-- Publishes a block. -/
def publish (l : Locale) (block : NanoStateBlock) (type : NanoTransactionType) : Call Unit := do
  let body ← publishBody l block type
  let _ ← rpcRequest net node body
  return ()

/-- The balance a request publishes. -/
def publishedBalance (body : Json) : Option Str := do
  (← (← body.member (text "block")).member (text "balance")).string

/-- A block with a signature and work can be published. -/
theorem publishBody_returns (l : Locale) (block : NanoStateBlock)
    (hsignature : block.signature.isSome) (hwork : block.work.isSome) (type : NanoTransactionType) :
    ∃ body, publishBody l block type = .returns body := by
  obtain ⟨signature, hs⟩ := Option.isSome_iff_exists.1 hsignature
  obtain ⟨work, hw⟩ := Option.isSome_iff_exists.1 hwork
  simp only [publishBody, hs, hw, Option.map_some, Outcome.guardLet_some, Outcome.returns_bind,
    Outcome.pure_eq]
  exact ⟨_, rfl⟩

/-- A block is published unless it has no signature or no work. -/
theorem publishBody_returns_iff (l : Locale) (block : NanoStateBlock)
    (type : NanoTransactionType) :
    (∃ body, publishBody l block type = .returns body) ↔
      ¬(block.signature = none ∨ block.work = none) := by
  rw [not_or, ← Ne, ← Ne, Option.ne_none_iff_isSome, Option.ne_none_iff_isSome]
  refine ⟨?_, fun h => publishBody_returns l block h.1 h.2 type⟩
  rintro ⟨body, h⟩
  simp only [publishBody, Outcome.bind_eq_returns, Outcome.guardLet_eq_returns,
    Option.map_eq_some_iff] at h
  obtain ⟨_, ⟨signature, hsignature, _⟩, work, hwork, _⟩ := h
  rw [hsignature, hwork]
  exact ⟨rfl, rfl⟩

/-- The balance is published as it is printed. -/
theorem publishedBalance_publishBody {l : Locale} {block : NanoStateBlock}
    {type : NanoTransactionType} {body : Json} (h : publishBody l block type = .returns body) :
    publishedBalance body = some (block.balance.rawString l) := by
  obtain ⟨signature, _, h⟩ := Outcome.bind_eq_returns.1 h
  obtain ⟨work, _, h⟩ := Outcome.bind_eq_returns.1 h
  obtain rfl := Outcome.returns.inj h
  rfl

/-! ## Locales -/

/-- The balance `b` is hashed alike in two locales, and published in both as the
    decimal numeral of the number that is hashed. -/
def LocaleIndependent (l₁ l₂ : Locale) (b : ℕ) : Prop :=
  (NanoAmount.mk b).rawBytes l₁ = (NanoAmount.mk b).rawBytes l₂ ∧
  (∀ mc (block : NanoStateBlock), block.balance = ⟨b⟩ →
    hashStateBlock mc l₁ block = hashStateBlock mc l₂ block) ∧
  ∀ l, l = l₁ ∨ l = l₂ → ∀ (block : NanoStateBlock) type body, block.balance = ⟨b⟩ →
    publishBody l block type = .returns body →
      publishedBalance body = some (decimal (bytesValue ((NanoAmount.mk b).rawBytes l)))

/-- Hashing and publishing a balance do not depend on which of two locales is the
    current one if and only if both print its digits as ASCII digits. -/
theorem localeIndependent_iff (l₁ l₂ : Locale) (b : ℕ) :
    LocaleIndependent l₁ l₂ b ↔ l₁.PrintsLatin b ∧ l₂.PrintsLatin b := by
  refine ⟨?_, ?_⟩
  · rintro ⟨_, _, hpublished⟩
    have hprints : ∀ l, l = l₁ ∨ l = l₂ → l.PrintsLatin b := by
      intro l hl
      -- Any block with the balance that has a signature and work tells.
      obtain ⟨body, hbody⟩ := publishBody_returns l
        { zeroBlock ⟨b⟩ with work := some [], signature := some [] } rfl rfl .send
      have hdecimal := hpublished l hl _ .send body rfl hbody
      rw [publishedBalance_publishBody hbody, Option.some.injEq] at hdecimal
      exact ((rawString_eq_decimal_iff l b _).1 hdecimal).2
    exact ⟨hprints l₁ (.inl rfl), hprints l₂ (.inr rfl)⟩
  · rintro ⟨h₁, h₂⟩
    have hprint : ∀ l, l = l₁ ∨ l = l₂ → (NanoAmount.mk b).rawString l = decimal b := by
      rintro l (rfl | rfl)
      · exact (rawString_eq_decimal_iff _ b b).2 ⟨rfl, h₁⟩
      · exact (rawString_eq_decimal_iff _ b b).2 ⟨rfl, h₂⟩
    have hbytes : (NanoAmount.mk b).rawBytes l₁ = (NanoAmount.mk b).rawBytes l₂ := by
      rw [rawBytes_of_rawString (hprint l₁ (.inl rfl)),
        rawBytes_of_rawString (hprint l₂ (.inr rfl))]
    refine ⟨hbytes, ?_, ?_⟩
    · -- Hashing reads the locale for the bytes of the balance only.
      intro mc block hb
      simp only [hashStateBlock, unhashed, hb, hbytes]
    · intro l hl block type body hb hbody
      rw [publishedBalance_publishBody hbody, hb, hprint l hl, rawBytes_of_rawString (hprint l hl),
        bytesValue_shortBytes]

/-- With Arabic-Indic digits, the balance is not hashed as it is with Latin ones. -/
theorem not_localeIndependent_arabicIndic : ¬LocaleIndependent .posix .arabicIndic 5 := by
  rintro ⟨hbytes, _⟩
  rw [rawBytes_of_rawString (rawString_of_isLatin Locale.posix_isLatin 5)] at hbytes
  revert hbytes
  decide +kernel

end NanoSwift
