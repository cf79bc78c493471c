import NanoSwift.PendingResponse

/-!
# The two forms of the client

Every call of the client is written twice, with a result and with a completion
handler. Both forms make the same request (`asyncSends_iff`, `completionSends_iff`)
and come to the same value or error, with two exceptions (`formsAgree_iff`).

* Where the data of a response do not decode, the one throws the error of the decoder,
  and the other hands over one of the client.
* Pending blocks are in the order of a dictionary, of which each form decodes its own:
  unless there is at most one, they need not be in the same order. In some order they
  are the same if all keys are different.
-/

namespace NanoSwift.NodeCall

variable (l : Locale) {nf : Normalization} (order order' : DictionaryOrder nf)

/-! ## Requests -/

/-- After the requests `past`, the form that returns or throws uploads `body`: it
    throws whatever error of the transport that ends in. -/
def AsyncSends (call : NodeCall) (past : List Json) (body : Json) : Prop :=
  ∀ (net : Network) (node : NanoNode) (code : ℤ), net.url node.address = true →
    net.upload node.address past body = .error code →
      call.async l order net node past = .throws (.transport code)

/-- After the requests `past`, the form with a completion handler uploads `body`, and
    nothing else. -/
def CompletionSends (call : NodeCall) (past : List Json) (body : Json) : Prop :=
  ∀ (net : Network) (node : NanoNode), (call.completion l order net node past).2 =
    if net.url node.address = true then body :: past else past

/-- A network on which the upload of `body` ends in the error `code`, and any other in
    the error `0`. -/
noncomputable def telling (body : Json) (code : ℤ) : Network where
  url _ := true
  upload _ _ body' := open Classical in .error (if body' = body then code else 0)
  json _ := none

variable {l order order'}

theorem async_of_error {call : NodeCall} {past : List Json} {body : Json}
    (hbody : call.body l = .returns body) {net : Network} {node : NanoNode} {code : ℤ}
    (hurl : net.url node.address = true)
    (hupload : net.upload node.address past body = .error code) :
    call.async l order net node past = .throws (.transport code) := by
  rw [async_eq, request, hbody, Outcome.returns_bind, rpcRequest_of_error hurl hupload,
    Outcome.throws_bind]

/-- The form that returns or throws uploads the body of its request. -/
theorem asyncSends_iff {call : NodeCall} {past : List Json} {body : Json} :
    AsyncSends l order call past body ↔ call.body l = .returns body := by
  refine ⟨fun h => ?_, fun hbody net node code => async_of_error hbody⟩
  -- Two errors of the same upload are thrown, so that it is made.
  have htells : ∀ code,
      call.async l order (telling body code) ⟨[]⟩ past = .throws (.transport code) := fun code =>
    h (telling body code) ⟨[]⟩ code rfl (congrArg Except.error (if_pos rfl))
  cases hbody : call.body l with
  | returns body' =>
    have hthrows := htells 1
    rw [async_of_error hbody rfl rfl, Outcome.throws.injEq, RequestError.transport.injEq] at hthrows
    split_ifs at hthrows with heq
    · rw [heq]
    · cases hthrows
  | throws e =>
    have hthrows : ∀ code, (.throws e : Outcome RequestError (call.Result × List Json)) =
        .throws (.transport code) := fun code => by
      rw [← htells code, async_eq, request, hbody, Outcome.throws_bind, Outcome.throws_bind]
    have hone := (hthrows 1).symm.trans (hthrows 2)
    simp at hone
  | traps t => exact absurd hbody (call.body_ne_traps t)

/-- So does the form with a completion handler. -/
theorem completionSends_iff {call : NodeCall} {past : List Json} {body : Json} :
    CompletionSends l order call past body ↔ call.body l = .returns body := by
  refine ⟨fun h => ?_, fun hbody net node => ?_⟩
  · have hnet := h (telling body 0) ⟨[]⟩
    cases hbody : call.body l with
    | returns body' =>
      rw [completion_of_returns hbody, Completion.rpcRequest_snd] at hnet
      rw [(List.cons.inj hnet).1]
    | throws e =>
      rw [completion_of_throws hbody] at hnet
      exact absurd hnet.symm (List.cons_ne_self body past)
    | traps t => exact absurd hbody (call.body_ne_traps t)
  · rw [completion_of_returns hbody, Completion.rpcRequest_snd]

/-! ## Agreement -/

variable (l order order') (net : Network) (node : NanoNode)

/-- Both forms upload the same, the handler is called once, and it gets a value exactly
    where the other form returns the same, after the same requests, and an error exactly
    where the other form throws that. -/
structure FormsAgree (call : NodeCall) (same : call.Result → call.Result → Prop)
    (past : List Json) : Prop where
  sends : ∀ body, AsyncSends l order call past body ↔ CompletionSends l order' call past body
  once : ∃ result, (call.completion l order' net node past).1 = [result]
  gets : ∀ value', (call.completion l order' net node past).1 = [(some value', none)] →
    ∃ value, same value value' ∧ call.async l order net node past =
      .returns (value, (call.completion l order' net node past).2)
  returns : ∀ value past', call.async l order net node past = .returns (value, past') →
    ∃ value', same value value' ∧
      call.completion l order' net node past = ([(some value', none)], past')
  error : ∀ e, (call.completion l order' net node past).1 = [(none, some e)] ↔
    call.async l order net node past = .throws e

/-- Values are the same but for the order of pending blocks. -/
def SameBlocks : (call : NodeCall) → call.Result → call.Result → Prop
  | getPendingBlocks _ _ _ _ => List.Perm (α := NanoPendingBlock)
  | getAccountInfo _ => Eq
  | generateWork _ _ => Eq
  | publish _ _ => Eq

/-- What the data of a response must be for a call to read them: an object, for
    account information and for work with strings for all members of a success. -/
def Reads (call : NodeCall) (data : Bytes) : Prop :=
  match call with
  | getAccountInfo account => ∃ response, net.json data = some response ∧
    ∀ key ∈ (getAccountInfo account).successMembers, (response.stringMember key).isSome
  | generateWork account type => ∃ response, net.json data = some response ∧
    ∀ key ∈ (generateWork account type).successMembers, (response.stringMember key).isSome
  | getPendingBlocks _ _ _ _ => ∃ members, net.json data = some (.obj members)
  | publish _ _ => True

/-- The keys of the pending blocks a call reads from the data of a response are such that
    `p`: those of an object all members of which decode. -/
def OnKeys (call : NodeCall) (data : Bytes) (p : List Str → Prop) : Prop :=
  match call with
  | getPendingBlocks _ _ _ _ => ∀ response blocks members, net.json data = some response →
    response.member (text "blocks") = some blocks → blocks.members = some members →
    (∀ m ∈ members, MemberReads m) → p (members.map Prod.fst)
  | _ => True

/-- A call makes a request, which is answered with `data`. -/
def Gets (call : NodeCall) (past : List Json) (data : Bytes) : Prop :=
  ∃ body, call.body l = .returns body ∧ net.Answers node past body data

variable {l order order' net node}

/-- Account information is in a response if and only if all its members are there, as
    strings. -/
theorem nanoAccountInfo_ne_none_iff (account : NanoAccount) (response : Json) :
    nanoAccountInfo response ≠ none ↔
      ∀ key ∈ (getAccountInfo account).successMembers, (response.stringMember key).isSome := by
  rw [← Option.isSome_iff_ne_none]
  simp [nanoAccountInfo, successMembers, Option.isSome_bind, Option.any_eq_true,
    Option.isSome_iff_exists]

/-- So is work. -/
theorem nanoWorkGenerateResponse_ne_none_iff (account : NanoAccount) (type : NanoWorkType)
    (response : Json) : nanoWorkGenerateResponse response ≠ none ↔
      ∀ key ∈ (generateWork account type).successMembers, (response.stringMember key).isSome := by
  have hmembers : nanoWorkGenerateResponse response = do
      let work ← response.stringMember (text "work")
      let _difficulty ← response.stringMember (text "difficulty")
      let _multiplier ← response.stringMember (text "multiplier")
      let _hash ← response.stringMember (text "hash")
      return work := by
    simp only [nanoWorkGenerateResponse, Json.stringMember, ← Option.bind_eq_bind, bind_assoc]
  rw [← Option.isSome_iff_ne_none, hmembers]
  simp [successMembers, Option.isSome_bind, Option.any_eq_true, Option.isSome_iff_exists]

/-- The data a call reads are those that decode. -/
theorem reads_iff {call : NodeCall} {data : Bytes} :
    call.Reads net data ↔ call.decode l order net data ≠ none := by
  have hbind : ∀ {α : Type} (f : Json → Option α), (net.json data).bind f ≠ none ↔
      ∃ response, net.json data = some response ∧ f response ≠ none := by
    intro α f
    cases net.json data <;> simp
  cases call with
  | getAccountInfo account =>
    change _ ↔ (net.json data).bind nanoAccountInfo ≠ none
    simp only [hbind, nanoAccountInfo_ne_none_iff account, Reads]
  | generateWork account type =>
    change _ ↔ (net.json data).bind nanoWorkGenerateResponse ≠ none
    simp only [hbind, nanoWorkGenerateResponse_ne_none_iff account type, Reads]
  | getPendingBlocks account threshold includeOnlyConfirmed includeActive =>
    change _ ↔ (net.json data).bind (nanoPendingResponse l order) ≠ none
    rw [hbind]
    constructor
    · rintro ⟨members, hmembers⟩
      refine ⟨.obj members, hmembers, fun hnone => ?_⟩
      exact (nanoPendingResponse_eq_none_iff l order _).1 hnone members rfl
    · rintro ⟨response, hresponse, hdecode⟩
      rw [Ne, nanoPendingResponse_eq_none_iff, not_forall] at hdecode
      obtain ⟨members, hmembers⟩ := hdecode
      exact ⟨members, hresponse.trans (congrArg some (not_not.1 hmembers))⟩
  | publish block type => exact iff_of_true trivial (Option.some_ne_none ())

/-- The keys of pending blocks are those of the entries that the dictionary is made from. -/
theorem onKeys_iff {p : List Str → Prop} (hnil : p []) {account : NanoAccount}
    {threshold : NanoAmount} {includeOnlyConfirmed includeActive : Bool} {data : Bytes} :
    (getPendingBlocks account threshold includeOnlyConfirmed includeActive).OnKeys net data p ↔
      ∀ response, net.json data = some response → p ((madeOf response).map Prod.fst) := by
  constructor
  · intro h response hresponse
    rw [madeOf]
    cases hmade : (response.member (text "blocks")).bind jsonBlocks with
    | none => exact hnil
    | some made =>
      obtain ⟨blocks, hblocks, hjson⟩ := Option.bind_eq_some_iff.1 hmade
      obtain ⟨members, hmembers, hdecodes⟩ := jsonBlocks_eq_some.1 hjson
      rw [Option.getD_some, map_fst_of_decodes hdecodes]
      exact h response blocks members hresponse hblocks hmembers
        (exists_decodes_iff.1 ⟨_, hdecodes⟩)
  · intro h response blocks members hresponse hblocks hmembers hreads
    obtain ⟨made, hdecodes⟩ := exists_decodes_iff.2 hreads
    have hp := h response hresponse
    rwa [madeOf, hblocks, Option.bind_some, jsonBlocks_eq_some.2 ⟨members, hmembers, hdecodes⟩,
      Option.getD_some, map_fst_of_decodes hdecodes] at hp

section Orders

variable {data : Bytes}

/-- Pending blocks are those of the entries in a response, in the order of a dictionary. -/
theorem bind_nanoPendingResponse_eq_some {value : List NanoPendingBlock} :
    (net.json data).bind (nanoPendingResponse l order) = some value ↔
      ∃ members, net.json data = some (.obj members) ∧
        value = (order.entries (madeOf (.obj members))).map (pendingBlock l) := by
  rw [Option.bind_eq_some_iff]
  constructor
  · rintro ⟨response, hresponse, hvalue⟩
    cases response with
    | obj members => exact ⟨members, hresponse, (Option.some.inj hvalue).symm⟩
    | str s => cases hvalue
    | other => cases hvalue
  · rintro ⟨members, hmembers, rfl⟩
    exact ⟨_, hmembers, rfl⟩

/-- A response without members has no entries. -/
theorem forall_members_iff {p : List Str → Prop} (hnil : p []) :
    (∀ response, net.json data = some response → p ((madeOf response).map Prod.fst)) ↔
      ∀ members, net.json data = some (.obj members) →
        p ((madeOf (.obj members)).map Prod.fst) := by
  refine ⟨fun h members => h _, fun h response hresponse => ?_⟩
  cases response with
  | obj members => exact h members hresponse
  | str s => exact hnil
  | other => exact hnil

variable (l) in
/-- Where entries come to the same in all orders exactly if their keys are such that `p`,
    so do the pending blocks of a response. -/
theorem forall_pending_iff (same : List NanoPendingBlock → List NanoPendingBlock → Prop)
    (p : List Str → Prop) (hnil : p [])
    (horders : ∀ made : List (Str × NanoPendingBlockDecoder), (made.map Prod.fst).Nodup →
      ((∀ order order' : DictionaryOrder nf, same ((order.entries made).map (pendingBlock l))
        ((order'.entries made).map (pendingBlock l))) ↔ p (made.map Prod.fst)))
    {account : NanoAccount} {threshold : NanoAmount}
    {includeOnlyConfirmed includeActive : Bool} :
    (∀ (order order' : DictionaryOrder nf) value value',
      (net.json data).bind (nanoPendingResponse l order) = some value →
      (net.json data).bind (nanoPendingResponse l order') = some value' → same value value') ↔
    (getPendingBlocks account threshold includeOnlyConfirmed includeActive).OnKeys net data p := by
  rw [onKeys_iff hnil, forall_members_iff hnil]
  simp only [← horders _ (nodup_madeOf _), bind_nanoPendingResponse_eq_some]
  constructor
  · intro h members hmembers order order'
    exact h order order' _ _ ⟨members, hmembers, rfl⟩ ⟨members, hmembers, rfl⟩
  · rintro h order order' _ _ ⟨members, hmembers, rfl⟩ ⟨members', hmembers', rfl⟩
    obtain rfl := Json.obj.inj (Option.some.inj (hmembers.symm.trans hmembers'))
    exact h members hmembers order order'

end Orders

/-- The data of a response decode to the same in all orders if they have at most one
    pending block. -/
theorem decode_eq_iff {call : NodeCall} {data : Bytes} :
    (∀ (order order' : DictionaryOrder nf) value value', call.decode l order net data = some value →
      call.decode l order' net data = some value' → value = value') ↔
    call.OnKeys net data fun keys => keys.length ≤ 1 := by
  cases call with
  | getPendingBlocks account threshold includeOnlyConfirmed includeActive =>
    refine forall_pending_iff l Eq (fun keys => keys.length ≤ 1) (Nat.zero_le 1)
      fun made hmade => ?_
    rw [forall_orders_eq_iff l hmade, List.length_map]
  | getAccountInfo account =>
    exact iff_of_true (fun _ _ _ _ h h' => Option.some.inj (h.symm.trans h')) trivial
  | generateWork account type =>
    exact iff_of_true (fun _ _ _ _ h h' => Option.some.inj (h.symm.trans h')) trivial
  | publish block type =>
    exact iff_of_true (fun _ _ _ _ h h' => Option.some.inj (h.symm.trans h')) trivial

/-- They decode to the same but for the order if no two pending blocks have equal keys. -/
theorem decode_sameBlocks_iff {call : NodeCall} {data : Bytes} :
    (∀ (order order' : DictionaryOrder nf) value value', call.decode l order net data = some value →
      call.decode l order' net data = some value' → call.SameBlocks value value') ↔
    call.OnKeys net data fun keys => (keys.map nf.form).Nodup := by
  cases call with
  | getPendingBlocks account threshold includeOnlyConfirmed includeActive =>
    refine forall_pending_iff l List.Perm (fun keys => (keys.map nf.form).Nodup) List.nodup_nil
      fun made hmade => ?_
    rw [forall_orders_perm_iff l hmade, List.map_map]
    rfl
  | getAccountInfo account =>
    exact iff_of_true (fun _ _ _ _ h h' => Option.some.inj (h.symm.trans h')) trivial
  | generateWork account type =>
    exact iff_of_true (fun _ _ _ _ h h' => Option.some.inj (h.symm.trans h')) trivial
  | publish block type =>
    exact iff_of_true (fun _ _ _ _ h h' => Option.some.inj (h.symm.trans h')) trivial

/-- Where the forms agree: what the data of a response decode to, in either order, must
    be the same, and they must decode. -/
theorem formsAgree_iff_decode {call : NodeCall} {same : call.Result → call.Result → Prop}
    {past : List Json} :
    FormsAgree l order order' net node call same past ↔
      ∀ data, call.Gets l net node past data → call.Reads net data ∧
        ∀ value value', call.decode l order net data = some value →
          call.decode l order' net data = some value' → same value value' := by
  have hsends : ∀ body,
      AsyncSends l order call past body ↔ CompletionSends l order' call past body := fun _ =>
    asyncSends_iff.trans completionSends_iff.symm
  have hasync := @async_eq l nf order net node call past
  rcases @completion_fst l nf order' net node call past with
    ⟨e, hrequest, hfst⟩ | ⟨body, data, hbody, hrequest, hfst⟩
  · -- Both forms end in the error of the request.
    rw [hrequest, Outcome.throws_bind] at hasync
    refine iff_of_true ⟨hsends, ⟨_, hfst⟩, by simp [hfst], by simp [hasync],
      by simp [hfst, hasync]⟩ ?_
    rintro data ⟨body, hbody, hanswers⟩
    cases hrequest.symm.trans (request_eq_returns.2 ⟨body, hbody, hanswers, rfl⟩)
  · rw [hrequest, Outcome.returns_bind] at hasync
    dsimp only at hasync
    have hgets : ∀ data', call.Gets l net node past data' ↔ data' = data := by
      refine fun data' => ⟨?_, ?_⟩
      · rintro ⟨body', hbody', hanswers⟩
        have heq := hrequest.symm.trans (request_eq_returns.2 ⟨body', hbody', hanswers, rfl⟩)
        exact (Prod.mk.inj (Outcome.returns.inj heq)).1.symm
      · rintro rfl
        obtain ⟨body', hbody', hanswers, _⟩ := request_eq_returns.1 hrequest
        exact ⟨body', hbody', hanswers⟩
    obtain ⟨_, _, ⟨_, hurl, _⟩, _⟩ := request_eq_returns.1 hrequest
    have hsnd : (call.completion l order' net node past).2 = body :: past := by
      rw [completionSends_iff.2 hbody net node, if_pos hurl]
    simp only [hgets, forall_eq]
    cases hdecode : call.decode l order net data with
    | none =>
      -- The errors are different.
      have hunread : ¬call.Reads net data := fun h => reads_iff.1 h hdecode
      refine iff_of_false (fun h => ?_) fun h => hunread h.1
      rw [not_not.1 (mt reads_iff.2 hunread)] at hfst
      have hthrows := (h.error _).1 hfst
      rw [hasync, hdecode] at hthrows
      cases hthrows
    | some value =>
      have hread : call.Reads net data := reads_iff.2 (hdecode ▸ Option.some_ne_none value)
      obtain ⟨value', hdecode'⟩ := Option.ne_none_iff_exists'.1
        ((@reads_iff l nf order' net call data).1 hread)
      rw [hdecode'] at hfst
      have hasync : call.async l order net node past = .returns (value, body :: past) := by
        rw [hasync, hdecode]
        rfl
      have hcompletion : call.completion l order' net node past =
        ([(some value', none)], body :: past) := Prod.ext hfst hsnd
      constructor
      · intro h
        obtain ⟨value'', hsame, hreturns⟩ := h.gets value' hfst
        rw [hasync, Outcome.returns.injEq, Prod.mk.injEq] at hreturns
        exact ⟨hread, by simpa [hdecode', hreturns.1] using hsame⟩
      · rintro ⟨_, hsame⟩
        exact ⟨hsends, ⟨_, hfst⟩, by simp [hcompletion, hasync, hsame value value' rfl hdecode'],
          by simp [hcompletion, hasync, hsame value value' rfl hdecode'],
          by simp [hcompletion, hasync]⟩

/-- The forms of a call agree, whatever the orders of dictionaries, if and only if the
    data it gets, if any, are such that it reads them, and no two pending blocks; up to
    the order of pending blocks, they agree if and only if it reads the data, and no two
    pending blocks with equal keys. -/
theorem formsAgree_iff (call : NodeCall) (past : List Json) :
    ((∀ order order' : DictionaryOrder nf, FormsAgree l order order' net node call Eq past) ↔
      ∀ data, call.Gets l net node past data →
        call.Reads net data ∧ call.OnKeys net data fun keys => keys.length ≤ 1) ∧
    ((∀ order order' : DictionaryOrder nf,
        FormsAgree l order order' net node call call.SameBlocks past) ↔
      ∀ data, call.Gets l net node past data →
        call.Reads net data ∧ call.OnKeys net data fun keys => (keys.map nf.form).Nodup) := by
  -- Where a call reads the data, all orders must come to the same.
  have hsplit : ∀ same : call.Result → call.Result → Prop,
      (∀ order order' : DictionaryOrder nf, FormsAgree l order order' net node call same past) ↔
        ∀ data, call.Gets l net node past data → call.Reads net data ∧
          ∀ (order order' : DictionaryOrder nf) value value',
            call.decode l order net data = some value →
            call.decode l order' net data = some value' → same value value' := by
    intro same
    simp only [formsAgree_iff_decode]
    refine ⟨fun h data hdata => ⟨(h (.given nf) (.given nf) data hdata).1, fun order order' =>
      (h order order' data hdata).2⟩, fun h order order' data hdata => ?_⟩
    exact ⟨(h data hdata).1, (h data hdata).2 order order'⟩
  rw [hsplit, hsplit]
  refine ⟨forall₂_congr fun data hdata => and_congr_right fun _ => ?_,
    forall₂_congr fun data hdata => and_congr_right fun _ => ?_⟩
  · exact decode_eq_iff
  · exact decode_sameBlocks_iff

/-- The error of a node about an account it does not know is thrown as that of the
    decoder, and handed over as that of the client. -/
theorem not_formsAgree_getAccountInfo :
    ¬FormsAgree .posix (.given .kelvin) (.given .kelvin)
      (.saying (.obj [(text "error", .str (text "Account not found"))])) ⟨[]⟩
      (.getAccountInfo zeroAccount) Eq [] := by
  intro h
  have hthrows := (h.error (.node .jsonError)).1 rfl
  cases hthrows

end NanoSwift.NodeCall
