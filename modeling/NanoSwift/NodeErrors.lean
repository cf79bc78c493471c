import NanoSwift.Completion

/-!
# Errors of a node

What the calls of the client make of what a node answers, in both forms
(`NodeCall`): both make the same request (`NodeCall.request`), and hand over what the
same function decodes from the answer (`NodeCall.async_eq`, `NodeCall.completion_fst`),
each with a dictionary of its own.

* A node that reports an error is not always taken for one that does: asking for
  pending blocks and publishing a block succeed all the same
  (`endsInError_iff`).
-/

namespace NanoSwift

/-! ## Calls -/

/-- A call of the client. -/
inductive NodeCall
  | getAccountInfo (account : NanoAccount)
  | generateWork (account : NanoAccount) (type : NanoWorkType)
  | getPendingBlocks (account : NanoAccount) (threshold : NanoAmount)
      (includeOnlyConfirmed includeActive : Bool)
  | publish (block : NanoStateBlock) (type : NanoTransactionType)

namespace NodeCall

/-- What a call returns. -/
def Result : NodeCall → Type
  | getAccountInfo _ => NanoAccountInfo
  | generateWork _ _ => Str
  | getPendingBlocks _ _ _ _ => List NanoPendingBlock
  | publish _ _ => Unit

variable (l : Locale) {nf : Normalization} (order order' : DictionaryOrder nf) (net : Network)
  (node : NanoNode)

/-- The call that returns or throws. -/
def async : (call : NodeCall) → Call call.Result
  | getAccountInfo account => NanoSwift.getAccountInfo net node account
  | generateWork account type => NanoSwift.generateWork net node account type
  | getPendingBlocks account threshold includeOnlyConfirmed includeActive =>
    NanoSwift.getPendingBlocks l order net node account threshold includeOnlyConfirmed includeActive
  | publish block type => NanoSwift.publish net node l block type

/-- The call with a completion handler that records what it gets; for one that gets
    an error or none, no error is the value. -/
def completion : (call : NodeCall) → (past : List Json) →
    List (Option call.Result × Option RequestError) × List Json
  | getAccountInfo account =>
    Completion.getAccountInfo net node account fun value error => [(value, error)]
  | generateWork account type =>
    Completion.generateWork net node account type fun value error => [(value, error)]
  | getPendingBlocks account threshold includeOnlyConfirmed includeActive =>
    Completion.getPendingBlocks net node l order account threshold includeOnlyConfirmed
      includeActive fun value error => [(value, error)]
  | publish block type =>
    Completion.publish net node l block type fun
      | none => [(some (), none)]
      | some e => [(none, some e)]

/-- The body of the request a call makes, or else its error. -/
def body : NodeCall → Outcome RequestError Json
  | getAccountInfo account => .returns (accountInfoBody account)
  | generateWork account type => generateWorkBody account type
  | getPendingBlocks account threshold includeOnlyConfirmed includeActive =>
    .returns (pendingBody l account threshold includeOnlyConfirmed includeActive)
  | publish block type => publishBody l block type

/-- What a call returns for the data of a response; publishing does not read them. -/
def decode : (call : NodeCall) → (data : Bytes) → Option call.Result
  | getAccountInfo _ => fun data => (net.json data).bind nanoAccountInfo
  | generateWork _ _ => fun data => (net.json data).bind nanoWorkGenerateResponse
  | getPendingBlocks _ _ _ _ => fun data => (net.json data).bind (nanoPendingResponse l order)
  | publish _ _ => fun _ => some ()

/-- The data of the response to the request a call makes. -/
def request (call : NodeCall) : Call Bytes := fun past => do
  let body ← call.body l
  rpcRequest net node body past

variable {l order order' net node}

/-- A request whose data are decoded. -/
theorem decoded_apply {α : Type} (body : Json) (decode : Bytes → Option α) (past : List Json) :
    (do let data ← rpcRequest net node body
        let value ← Outcome.guardLet (decode data) RequestError.decoding
        return value : Call α) past = do
      let (data, past) ← rpcRequest net node body past
      let value ← Outcome.guardLet (decode data) .decoding
      return (value, past) := by
  change (rpcRequest net node body past >>= _) = _
  refine bind_congr fun ⟨data, past⟩ => ?_
  cases decode data <;> rfl

/-- The call that returns makes its request, and decodes the data of the response. -/
theorem async_eq (call : NodeCall) (past : List Json) :
    call.async l order net node past = do
      let (data, past) ← call.request l net node past
      let value ← Outcome.guardLet (call.decode l order net data) .decoding
      return (value, past) := by
  cases call with
  | getAccountInfo account => exact decoded_apply _ _ past
  | generateWork account type =>
    change (StateT.lift (generateWorkBody account type) past >>= _) =
      ((generateWorkBody account type >>= _) >>= _)
    cases generateWorkBody account type with
    | returns body =>
      exact decoded_apply body (fun data => (net.json data).bind nanoWorkGenerateResponse) past
    | throws e => rfl
    | traps t => rfl
  | getPendingBlocks account threshold includeOnlyConfirmed includeActive =>
    exact decoded_apply _ _ past
  | publish block type =>
    change (StateT.lift (publishBody l block type) past >>= _) =
      ((publishBody l block type >>= _) >>= _)
    cases publishBody l block type with
    | returns body => rfl
    | throws e => rfl
    | traps t => rfl

/-- The call with a completion handler makes its request, and hands over what its data
    decode to. -/
theorem completion_of_returns {call : NodeCall} {body : Json} (h : call.body l = .returns body)
    (past : List Json) :
    call.completion l order net node past =
      Completion.rpcRequest net node body
        (Completion.decoded (call.decode l order net) fun value error => [(value, error)])
        past := by
  cases call with
  | getAccountInfo account =>
    obtain rfl := Outcome.returns.inj h
    rfl
  | generateWork account type =>
    simp only [NodeCall.body, generateWorkBody, Outcome.bind_eq_returns,
      Outcome.guardLet_eq_returns] at h
    obtain ⟨info, hinfo, h⟩ := h
    obtain rfl := Outcome.returns.inj h
    simp only [completion, Completion.generateWork, hinfo, Option.map_some]
    rfl
  | getPendingBlocks account threshold includeOnlyConfirmed includeActive =>
    obtain rfl := Outcome.returns.inj h
    rfl
  | publish block type =>
    simp only [NodeCall.body, publishBody, Outcome.bind_eq_returns,
      Outcome.guardLet_eq_returns] at h
    obtain ⟨signature, hsignature, work, hwork, h⟩ := h
    obtain rfl := Outcome.returns.inj h
    simp only [completion, Completion.publish, hsignature, hwork]
    congr 1
    funext data error
    rcases error with _ | e
    · rcases data with _ | data <;> rfl
    · rfl

/-- Where there is no request to make, the handler gets the error. -/
theorem completion_of_throws {call : NodeCall} {e : RequestError} (h : call.body l = .throws e)
    (past : List Json) : call.completion l order net node past = ([(none, some e)], past) := by
  cases call with
  | getAccountInfo account => cases h
  | generateWork account type =>
    rcases hinfo : account.accountInfo with _ | info
    · simp only [NodeCall.body, generateWorkBody, hinfo, Outcome.guardLet_none,
        Outcome.throws_bind, Outcome.throws.injEq] at h
      simp only [completion, Completion.generateWork, hinfo, Option.map_none, h]
      rfl
    · simp [NodeCall.body, generateWorkBody, hinfo] at h
  | getPendingBlocks account threshold includeOnlyConfirmed includeActive => cases h
  | publish block type =>
    rcases hsignature : block.signature with _ | signature
    · simp only [NodeCall.body, publishBody, hsignature, Option.map_none, Outcome.guardLet_none,
        Outcome.throws_bind, Outcome.throws.injEq] at h
      simp only [completion, Completion.publish, hsignature, Option.map_none, ← h]
    · rcases hwork : block.work with _ | work
      · simp only [NodeCall.body, publishBody, hsignature, hwork, Option.map_some,
          Outcome.guardLet_some, Outcome.returns_bind, Outcome.guardLet_none, Outcome.throws_bind,
          Outcome.throws.injEq] at h
        simp only [completion, Completion.publish, hsignature, hwork, Option.map_some, ← h]
      · simp [NodeCall.body, publishBody, hsignature, hwork] at h

theorem body_ne_traps (call : NodeCall) (t : Trap) : call.body l ≠ .traps t := by
  cases call with
  | getAccountInfo account => simp [NodeCall.body]
  | generateWork account type =>
    rcases hinfo : account.accountInfo with _ | info <;>
      simp [NodeCall.body, generateWorkBody, hinfo]
  | getPendingBlocks account threshold includeOnlyConfirmed includeActive => simp [NodeCall.body]
  | publish block type =>
    rcases hsignature : block.signature with _ | signature
    · simp [NodeCall.body, publishBody, hsignature]
    · rcases hwork : block.work with _ | work <;>
        simp [NodeCall.body, publishBody, hsignature, hwork]

/-- The request of a call returns the data its body is answered with. -/
theorem request_eq_returns {call : NodeCall} {past past' : List Json} {data : Bytes} :
    call.request l net node past = .returns (data, past') ↔
      ∃ body, call.body l = .returns body ∧ net.Answers node past body data ∧
        past' = body :: past := by
  simp only [request, Outcome.bind_eq_returns, rpcRequest_eq_returns]

/-- A call returns what the data its body is answered with decode to. -/
theorem async_eq_returns {call : NodeCall} {past past' : List Json} {value : call.Result} :
    call.async l order net node past = .returns (value, past') ↔
      ∃ body data, call.body l = .returns body ∧ net.Answers node past body data ∧
        call.decode l order net data = some value ∧ past' = body :: past := by
  rw [async_eq, Outcome.bind_eq_returns]
  constructor
  · rintro ⟨⟨data, past''⟩, hrequest, h⟩
    obtain ⟨body, hbody, hanswers, rfl⟩ := request_eq_returns.1 hrequest
    obtain ⟨value', hvalue, h⟩ := Outcome.bind_eq_returns.1 h
    obtain ⟨rfl, rfl⟩ := Prod.mk.inj (Outcome.returns.inj h)
    exact ⟨body, data, hbody, hanswers, Outcome.guardLet_eq_returns.1 hvalue, rfl⟩
  · rintro ⟨body, data, hbody, hanswers, hvalue, rfl⟩
    refine ⟨(data, body :: past), request_eq_returns.2 ⟨body, hbody, hanswers, rfl⟩, ?_⟩
    dsimp only
    rw [hvalue]
    rfl

/-- A request returns or throws, and its error, if any, is that of the call with a
    completion handler; what is returned is decoded. -/
theorem completion_fst (call : NodeCall) (past : List Json) :
    (∃ e, call.request l net node past = .throws e ∧
      (call.completion l order net node past).1 = [(none, some e)]) ∨
    ∃ body data, call.body l = .returns body ∧
      call.request l net node past = .returns (data, body :: past) ∧
      (call.completion l order net node past).1 =
        [match call.decode l order net data with
          | some value => (some value, none)
          | none => (none, some (.node .jsonError))] := by
  cases hbody : call.body l with
  | traps t => exact absurd hbody (call.body_ne_traps t)
  | throws e =>
    refine .inl ⟨e, ?_, by rw [completion_of_throws hbody]⟩
    rw [request, hbody, Outcome.throws_bind]
  | returns body =>
    rw [completion_of_returns hbody, request, hbody, Outcome.returns_bind]
    rcases Completion.rpcRequest_fst net node body
      (Completion.decoded (call.decode l order net) fun value error => [(value, error)]) past with
      ⟨data, hrequest, hfst⟩ | ⟨e, hrequest, hfst⟩
    · refine .inr ⟨body, data, rfl, hrequest, ?_⟩
      rw [hfst]
      cases hdecode : call.decode l order net data <;> simp [Completion.decoded, hdecode]
    · exact .inl ⟨e, hrequest, hfst⟩

/-! ## Answers -/

variable (l order order' net node)

/-- What a call returns for a response that is JSON. -/
def decodeResponse : (call : NodeCall) → (response : Json) → Option call.Result
  | getAccountInfo _ => nanoAccountInfo
  | generateWork _ _ => nanoWorkGenerateResponse
  | getPendingBlocks _ _ _ _ => nanoPendingResponse l order
  | publish _ _ => fun _ => some ()

/-- The node answers the request of a call, if it makes one, with `response`. -/
structure Answered (call : NodeCall) (past : List Json) (response : Json) : Prop where
  url : net.url node.address = true
  upload : ∀ body, call.body l = .returns body → ∃ (code : ℤ) (data : Bytes),
    200 ≤ code ∧ code ≤ 299 ∧ net.json data = some response ∧
    net.upload node.address past body = .ok
      { statusCode := some code, mimeType := some (text "application/json"), data := data }

variable {l order order' net node}

theorem decode_of_json {data : Bytes} {response : Json} (h : net.json data = some response)
    (call : NodeCall) : call.decode l order net data = call.decodeResponse l order response := by
  cases call with
  | getAccountInfo account => exact congrArg (·.bind nanoAccountInfo) h
  | generateWork account type => exact congrArg (·.bind nanoWorkGenerateResponse) h
  | getPendingBlocks account threshold includeOnlyConfirmed includeActive =>
    exact congrArg (·.bind (nanoPendingResponse l order)) h
  | publish block type => rfl

/-- Whether a response decodes does not depend on the order of a dictionary. -/
theorem decodeResponse_eq_none_iff (call : NodeCall) (response : Json) :
    call.decodeResponse l order response = none ↔
      call.decodeResponse l order' response = none := by
  cases call with
  | getPendingBlocks account threshold includeOnlyConfirmed includeActive =>
    exact (nanoPendingResponse_eq_none_iff l order response).trans
      (nanoPendingResponse_eq_none_iff l order' response).symm
  | getAccountInfo account => rfl
  | generateWork account type => rfl
  | publish block type => rfl

/-- The request of an answered call has the data of the answer. -/
theorem Answered.request {call : NodeCall} {past : List Json} {response body : Json}
    (h : Answered l net node call past response) (hbody : call.body l = .returns body) :
    ∃ data, call.request l net node past = .returns (data, body :: past) ∧
      net.json data = some response := by
  obtain ⟨code, data, hlow, hhigh, hjson, hupload⟩ := h.upload body hbody
  have hcode : ∃ c ∈ some code, 200 ≤ c ∧ c ≤ 299 := ⟨code, rfl, hlow, hhigh⟩
  exact ⟨data,
    request_eq_returns.2 ⟨body, hbody, ⟨_, h.url, hupload, hcode, rfl, rfl⟩, rfl⟩, hjson⟩

variable (order order') in
/-- An answered call that makes a request comes to what the answer decodes to, if it
    does, and else to an error of each form. -/
theorem Answered.ends {call : NodeCall} {past : List Json} {response body : Json}
    (h : Answered l net node call past response) (hbody : call.body l = .returns body) :
    call.async l order net node past =
      (match call.decodeResponse l order response with
        | some value => .returns (value, body :: past)
        | none => .throws .decoding) ∧
    (call.completion l order' net node past).1 =
      [match call.decodeResponse l order' response with
        | some value => (some value, none)
        | none => (none, some (.node .jsonError))] := by
  obtain ⟨data, hrequest, hjson⟩ := h.request hbody
  refine ⟨?_, ?_⟩
  · rw [async_eq, hrequest, Outcome.returns_bind]
    dsimp only
    rw [decode_of_json hjson]
    cases call.decodeResponse l order response <;> rfl
  · rcases @completion_fst l nf order' net node call past with
      ⟨e, hthrows, _⟩ | ⟨body', data', _, hreturns, hfst⟩
    · cases hrequest.symm.trans hthrows
    · obtain ⟨rfl, _⟩ := Prod.mk.inj (Outcome.returns.inj (hrequest.symm.trans hreturns))
      rw [hfst, decode_of_json hjson]

/-! ## Reported errors -/

variable (l order order' net node)

/-- The call ends in an error, and in no value: it throws, and in the other form its
    handler gets one error. -/
def EndsInError (call : NodeCall) (past : List Json) : Prop :=
  (∃ e, call.async l order net node past = .throws e) ∧
  ∃ e, (call.completion l order' net node past).1 = [(none, some e)]

/-- The members a node puts into its answer to a call that succeeds. -/
def successMembers : NodeCall → List Str
  | getAccountInfo _ =>
    [text "frontier", text "open_block", text "representative_block", text "balance",
      text "modified_timestamp", text "block_count", text "account_version",
      text "confirmation_height", text "confirmation_height_frontier", text "representative"]
  | generateWork _ _ => [text "work", text "difficulty", text "multiplier", text "hash"]
  | getPendingBlocks _ _ _ _ => [text "blocks"]
  | publish _ _ => [text "hash"]

/-- The answer to a call reports an error: an object with a member for it, and with
    none of a success. -/
def ReportsError (call : NodeCall) (response : Json) : Prop :=
  (response.member (text "error")).isSome ∧ ∀ key ∈ call.successMembers, response.member key = none

/-- The calls that end in an error where the node reports one: those that decode what
    a success has, and those that make no request. -/
def NoticesErrors : NodeCall → Prop
  | getAccountInfo _ => True
  | generateWork _ _ => True
  | getPendingBlocks _ _ _ _ => False
  | publish block _ => block.signature = none ∨ block.work = none

variable {l order order' net node}

/-- An answered call ends in an error if and only if it makes no request or the answer
    does not decode. -/
theorem Answered.endsInError_iff_decode {call : NodeCall} {past : List Json} {response : Json}
    (h : Answered l net node call past response) :
    call.EndsInError l order order' net node past ↔
      ∀ body, call.body l = .returns body → call.decodeResponse l order response = none := by
  cases hbody : call.body l with
  | traps t => exact absurd hbody (call.body_ne_traps t)
  | throws e =>
    refine iff_of_true ⟨⟨e, ?_⟩, e, by rw [completion_of_throws hbody]⟩ fun _ h => by cases h
    rw [async_eq, NodeCall.request, hbody, Outcome.throws_bind, Outcome.throws_bind]
  | returns body =>
    obtain ⟨hasync, hcompletion⟩ := h.ends order order' hbody
    cases hdecode : call.decodeResponse l order response with
    | none =>
      rw [hdecode] at hasync
      rw [(decodeResponse_eq_none_iff call response).1 hdecode] at hcompletion
      exact iff_of_true ⟨⟨_, hasync⟩, _, hcompletion⟩ fun _ _ => rfl
    | some value =>
      refine iff_of_false ?_ fun h => Option.some_ne_none value (h body rfl)
      rintro ⟨⟨e, hthrows⟩, _⟩
      rw [hdecode, hthrows] at hasync
      cases hasync

/-- Where a node reports an error, a call ends in one, in both forms, if and only if it
    asks for account information or for work, or is to publish a block without a
    signature or without work. -/
theorem endsInError_iff {call : NodeCall} {past : List Json} {members : List (Str × Json)}
    (h : Answered l net node call past (.obj members))
    (herror : call.ReportsError (.obj members)) :
    call.EndsInError l order order' net node past ↔ call.NoticesErrors := by
  rw [h.endsInError_iff_decode]
  cases call with
  | getAccountInfo account =>
    -- The first member there must be is missing.
    have hmissing : (Json.obj members).member (text "frontier") = none :=
      herror.2 _ List.mem_cons_self
    refine iff_of_true (fun _ _ => ?_) trivial
    change nanoAccountInfo (.obj members) = none
    simp [nanoAccountInfo, Json.stringMember, hmissing]
  | generateWork account type =>
    have hmissing : (Json.obj members).member (text "work") = none :=
      herror.2 _ List.mem_cons_self
    refine iff_of_true (fun _ _ => ?_) trivial
    change nanoWorkGenerateResponse (.obj members) = none
    simp [nanoWorkGenerateResponse, hmissing]
  | getPendingBlocks account threshold includeOnlyConfirmed includeActive =>
    -- An object is enough, whatever its members.
    refine iff_of_false (fun hnone => ?_) not_false
    have hdecode : nanoPendingResponse l order (.obj members) = none := hnone _ rfl
    simp [nanoPendingResponse, Json.members] at hdecode
  | publish block type =>
    have hsome : ∀ response,
        (NodeCall.publish block type).decodeResponse l order response ≠ none :=
      fun _ => Option.some_ne_none _
    rw [NoticesErrors, ← not_iff_not, ← publishBody_returns_iff l block type]
    simp [hsome, NodeCall.body]

end NodeCall

/-- A network that answers every request with `response`. -/
def Network.saying (response : Json) : Network where
  url _ := true
  upload _ _ _ :=
    .ok { statusCode := some 200, mimeType := some (text "application/json"), data := [] }
  json _ := some response

theorem answered_saying (l : Locale) (node : NanoNode) (call : NodeCall) (past : List Json)
    (response : Json) : NodeCall.Answered l (.saying response) node call past response where
  url := rfl
  upload _ _ := ⟨200, [], by decide, by decide, rfl, rfl⟩

/-- An answer that reports a fork. -/
def forkError : Json := .obj [(text "error", .str (text "Fork"))]

theorem reportsError_forkError (call : NodeCall) : call.ReportsError forkError := by
  refine ⟨rfl, ?_⟩
  cases call with
  | getAccountInfo account => simp [NodeCall.successMembers, forkError, Json.member, text]
  | generateWork account type => simp [NodeCall.successMembers, forkError, Json.member, text]
  | getPendingBlocks account threshold includeOnlyConfirmed includeActive =>
    simp [NodeCall.successMembers, forkError, Json.member, text]
  | publish block type => simp [NodeCall.successMembers, forkError, Json.member, text]

/-- Asking for account information ends in an error. -/
theorem endsInError_getAccountInfo : (NodeCall.getAccountInfo zeroAccount).EndsInError .posix
    (.given .kelvin) (.given .kelvin) (.saying forkError) ⟨[]⟩ [] :=
  (NodeCall.endsInError_iff (answered_saying _ _ _ _ _) (reportsError_forkError _)).2 trivial

/-- A block that is a fork seems published, and there seem to be no pending blocks. -/
theorem not_endsInError_fork :
    (∀ call, NodeCall.Answered .posix (.saying forkError) ⟨[]⟩ call [] forkError ∧
      call.ReportsError forkError) ∧
    ¬(NodeCall.publish { zeroBlock ⟨5⟩ with work := some [], signature := some [] }
      .send).EndsInError .posix (.given .kelvin) (.given .kelvin) (.saying forkError) ⟨[]⟩ [] ∧
    ¬(NodeCall.getPendingBlocks zeroAccount ⟨0⟩ true false).EndsInError .posix (.given .kelvin)
      (.given .kelvin) (.saying forkError) ⟨[]⟩ [] := by
  refine ⟨fun call => ⟨answered_saying _ _ call _ _, reportsError_forkError call⟩, ?_, ?_⟩
  · rw [(answered_saying _ _ _ _ _).endsInError_iff_decode]
    intro h
    cases h _ rfl
  · rw [(answered_saying _ _ _ _ _).endsInError_iff_decode]
    intro h
    cases h _ rfl

end NanoSwift
