import NanoSwift.NodeQueries

/-!
# Completion handlers

The client a second time, with completion handlers instead of results. A handler
is a closure; what becomes of a call is the list of what its handlers do, in
order, together with the requests made (the last one first).

All three functions that decode a response hand over what it decodes to alike
(`decoded`). Going through with a request comes to what the request of the other
form ends with (`rpcRequest_fst`), and uploads its body (`rpcRequest_snd`).
-/

namespace NanoSwift.Completion

variable {α γ : Type} (net : Network) (node : NanoNode) (l : Locale) {nf : Normalization}
  (order : DictionaryOrder nf)

/-- Requests the data of a node's response. -/
def rpcRequest (body : Json)
    (completionHandler : (data : Option Bytes) → (error : Option RequestError) → List γ)
    (past : List Json) : List γ × List Json :=
  if net.url node.address then
    match net.upload node.address past body with
    | .error code => (completionHandler none (some (.transport code)), body :: past)
    | .ok response =>
      if ∃ code ∈ response.statusCode, 200 ≤ code ∧ code ≤ 299 then
        if response.mimeType = some (text "application/json") then
          (completionHandler (some response.data) none, body :: past)
        else (completionHandler none (some (.node .invalidMime)), body :: past)
      else (completionHandler none (some (.node .httpError)), body :: past)
  else (completionHandler none (some (.node .invalidAddress)), past)

/-- The handler of a request that hands over what its data decode to. -/
def decoded (decode : Bytes → Option α)
    (completionHandler : (value : Option α) → (error : Option RequestError) → List γ)
    (data : Option Bytes) (error : Option RequestError) : List γ :=
  if error ≠ none then completionHandler none error
  else
    match data with
    | none => completionHandler none (some (.node .otherError))
    | some data =>
      match decode data with
      | none => completionHandler none (some (.node .jsonError))
      | some value => completionHandler (some value) none

/-- Requests the information about an account. -/
def getAccountInfo (account : NanoAccount)
    (completionHandler : Option NanoAccountInfo → Option RequestError → List γ) :
    List Json → List γ × List Json :=
  let body : Json := .obj
    [(text "action", .str (text "account_info")),
      (text "representative", .str (text "true")),
      (text "account", .str account.publicAddress)]
  rpcRequest net node body
    (decoded (fun data => (net.json data).bind nanoAccountInfo) completionHandler)

/-- Requests work for the frontier of an account. -/
def generateWork (account : NanoAccount) (type : NanoWorkType)
    (completionHandler : Option Str → Option RequestError → List γ) (past : List Json) :
    List γ × List Json :=
  match account.accountInfo.map (·.frontier) with
  | none => (completionHandler none (some (.node .accountInfoDoesNotExist)), past)
  | some hash =>
    let body : Json := .obj
      [(text "action", .str (text "work_generate")),
        (text "difficulty", .str (if type = .send then text "fffffff800000000"
          else if type = .receive then text "fffffe0000000000" else text "ffffffc000000000")),
        (text "hash", .str hash)]
    rpcRequest net node body
      (decoded (fun data => (net.json data).bind nanoWorkGenerateResponse) completionHandler) past

/-- Requests the blocks pending for an account. -/
def getPendingBlocks (account : NanoAccount) (threshold : NanoAmount)
    (includeOnlyConfirmed includeActive : Bool)
    (completionHandler : Option (List NanoPendingBlock) → Option RequestError → List γ) :
    List Json → List γ × List Json :=
  let body : Json := .obj
    [(text "action", .str (text "pending")),
      (text "account", .str account.publicAddress),
      (text "source", .str (text "true")),
      (text "threshold", .str (threshold.rawString l)),
      (text "include_only_confirmed",
        .str (if includeOnlyConfirmed then text "true" else text "false")),
      (text "include_active", .str (if includeActive then text "true" else text "false"))]
  rpcRequest net node body
    (decoded (fun data => (net.json data).bind (nanoPendingResponse l order)) completionHandler)

/-- Publishes a block; the handler gets an error, or none. -/
def publish (block : NanoStateBlock) (type : NanoTransactionType)
    (completionHandler : Option RequestError → List γ) (past : List Json) : List γ × List Json :=
  match block.signature.map hexString with
  | none => (completionHandler (some (.node .incompleteBlock)), past)
  | some signature =>
    match block.work with
    | none => (completionHandler (some (.node .incompleteBlock)), past)
    | some work =>
      let body : Json := .obj
        [(text "action", .str (text "process")),
          (text "json_block", .str (text "true")),
          (text "subtype", .str type.rawValue),
          (text "block", .obj
            [(text "type", .str (text "state")),
              (text "account", .str block.account),
              (text "previous", .str block.previous),
              (text "representative", .str block.representative),
              (text "balance", .str (block.balance.rawString l)),
              (text "link", .str block.link),
              (text "signature", .str signature),
              (text "work", .str work)])]
      -- What the node says is printed, and not read.
      let handler (data : Option Bytes) (error : Option RequestError) : List γ :=
        if error ≠ none then completionHandler error
        else
          match data with
          | none => completionHandler (some (.node .otherError))
          | some _ => completionHandler none
      rpcRequest net node body handler past

/-- A request ends as that of the other form does, with data or an error. -/
theorem rpcRequest_fst (body : Json)
    (completionHandler : Option Bytes → Option RequestError → List γ) (past : List Json) :
    (∃ data, NanoSwift.rpcRequest net node body past = .returns (data, body :: past) ∧
      (rpcRequest net node body completionHandler past).1 = completionHandler (some data) none) ∨
    ∃ e, NanoSwift.rpcRequest net node body past = .throws e ∧
      (rpcRequest net node body completionHandler past).1 = completionHandler none (some e) := by
  unfold rpcRequest NanoSwift.rpcRequest
  by_cases hurl : net.url node.address
  · cases hupload : net.upload node.address past body with
    | error code => exact .inr ⟨.transport code, by simp [hurl], by simp [hurl]⟩
    | ok response =>
      by_cases hcode : ∃ code ∈ response.statusCode, 200 ≤ code ∧ code ≤ 299
      · by_cases hmime : response.mimeType = some (text "application/json")
        · exact .inl ⟨response.data, by simp only [hurl, hcode, hmime, Outcome.guardElse_pos,
            Outcome.returns_bind, Outcome.pure_eq], by simp only [hurl, hcode, hmime, if_true]⟩
        · exact .inr ⟨.node .invalidMime, by simp only [hurl, hcode, hmime, Outcome.guardElse_pos,
            Outcome.guardElse_neg, Outcome.returns_bind, Outcome.throws_bind, not_false_eq_true],
            by simp only [hurl, hcode, hmime, if_true, if_false]⟩
      · exact .inr ⟨.node .httpError, by simp only [hurl, hcode, Outcome.guardElse_pos,
          Outcome.guardElse_neg, Outcome.returns_bind, Outcome.throws_bind, not_false_eq_true],
          by simp only [hurl, hcode, if_true, if_false]⟩
  · exact .inr ⟨.node .invalidAddress, by simp [hurl], by simp [hurl]⟩

/-- A request uploads its body if the address of the node is a URL, whatever comes of it. -/
theorem rpcRequest_snd (body : Json)
    (completionHandler : Option Bytes → Option RequestError → List γ) (past : List Json) :
    (rpcRequest net node body completionHandler past).2 =
      if net.url node.address = true then body :: past else past := by
  unfold rpcRequest
  split_ifs
  · cases net.upload node.address past body with
    | error code => rfl
    | ok response =>
      dsimp only
      split_ifs <;> rfl
  · rfl

end NanoSwift.Completion
