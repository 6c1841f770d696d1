/-
# Calls over HTTP

The model of the cluster hands a request to its target and the answer back to the caller.  In the
program both go through dicts, JSON and HTTP.

* `http_exchange_delivers` -- a call over HTTP does what the step of the model does.
* `http_call_raises` -- when anything but a `TransportError` leaves a method of the transport.
-/
import PyRaftKv.Guarantees.Agreement
import PyRaftKv.Transport.Http

namespace PyRaftKv

open Formats PyJson HTTPTransport Cluster

/-! ## 1. One route and one method -/

section Exchange

variable {R : Type} {client : Client R} {fw : Framework R} {t : HTTPTransport} {targetId : NodeId}
  {address path : String} {ρ α : Type} {routes : String → Option Route}
  {decode : List (String × PyJson) → Posted ρ} {handle : ρ → NodeM α} {encode : α → Json}
  {read : PyJson → Except PyError α} {payload : List (String × Json)} {n : RaftNode} {r : ρ}

/-- The address is the only thing a method looks up. -/
theorem call_known {name : String} {body : Json}
    (haddress : t.addresses targetId = some address) :
    t.call client name path targetId body read =
      settle client name targetId read (client.fetch (address ++ path) body) := by
  unfold HTTPTransport.call HTTPTransport.url
  rw [haddress]
  rfl

/-- A response that was posted back and reports success. -/
theorem fetch_ok {url : String} {body : Json} {response : R}
    (hpost : client.post url body = .ok response)
    (hstatus : client.raiseForStatus response = .ok ()) :
    client.fetch url body = .ok response := by
  unfold Client.fetch
  rw [hpost]
  change (client.raiseForStatus response >>= fun _ => Except.ok response) = _
  rw [hstatus]
  rfl

theorem fetch_httpError {url : String} {body : Json} {response : R}
    (hpost : client.post url body = .ok response)
    (hstatus : client.raiseForStatus response = .error .httpError) :
    client.fetch url body = .error .httpError := by
  unfold Client.fetch
  rw [hpost]
  change (client.raiseForStatus response >>= fun _ => Except.ok response) = _
  rw [hstatus]
  rfl

/-- A payload that is decoded is handled. -/
theorem runRoute_request (hdecode : decode (ofMembers payload) = .request r) :
    runRoute decode handle encode (ofMembers payload) n =
      { node := (handle r n).node, writes := (handle r n).writes
        result := match (handle r n).result with
          | .ok response => .returned (encode response)
          | .error _ => .raised } := by
  rcases hresult : (handle r n).result with e | response
  · simp only [runRoute, hdecode, hresult]
  · simp only [runRoute, hdecode, hresult]

/-- What a handled request leaves at the target. -/
theorem serve_handles (hlawful : fw.Lawful client)
    (hroute : routes path = some (runRoute decode handle encode))
    (hbody : fw.Encodes (.obj payload)) (hdecode : decode (ofMembers payload) = .request r) :
    (fw.serve routes path (.obj payload) n).node = (handle r n).node ∧
      (fw.serve routes path (.obj payload) n).writes = (handle r n).writes := by
  have hrun := hlawful.runs n hroute hbody
  rw [runRoute_request hdecode] at hrun
  exact hrun

/-- The caller gets what the handler returns. -/
theorem call_answers (name : String) (hlawful : fw.Lawful client)
    (hroute : routes path = some (runRoute decode handle encode))
    (hbody : fw.Encodes (.obj payload)) (hdecode : decode (ofMembers payload) = .request r)
    (hread : ∀ a, read (ofJson (encode a)) = .ok a)
    (hanswer : ∀ a, (handle r n).result = .ok a → fw.Encodes (encode a))
    (haddress : t.addresses targetId = some address)
    (hpost : client.post (address ++ path) (.obj payload) =
      .ok (fw.serve routes path (.obj payload) n).response) :
    t.call client name path targetId (.obj payload) read = match (handle r n).result with
      | .ok response => .ok response
      | .error _ => .error (.transportError s!"{name} to {targetId} failed") := by
  rw [call_known haddress]
  rcases hresult : (handle r n).result with e | response
  · have hraised : (runRoute decode handle encode (ofMembers payload) n).result = .raised := by
      rw [runRoute_request hdecode, hresult]
    rw [fetch_httpError hpost (hlawful.fails hroute hbody hraised)]
    rfl
  · have hreturned : (runRoute decode handle encode (ofMembers payload) n).result =
        .returned (encode response) := by
      rw [runRoute_request hdecode, hresult]
    obtain ⟨hstatus, hjson⟩ :=
      hlawful.returns hroute hbody hreturned (hanswer response hresult)
    have hvalue : (client.json (fw.serve routes path (.obj payload) n).response >>= read) =
        .ok response := by
      rw [hjson]
      exact hread response
    rw [fetch_ok hpost hstatus]
    simp only [settle, readResponse, hvalue]

end Exchange

/-! ## 2. Every call -/

section Calls

variable {R : Type} {client : Client R} {fw : Framework R} {py : Interpreter} {clock : Clock}
  {p : Process}

/-- A handler's result on its way back, once as a response and once as an answer in the model. -/
theorem answered {α : Type} (result : Except RaftError α) (wrap : α → Response) (i : Nat)
    (failure : CallError) :
    Except.map wrap (match result with
      | .ok response => .ok response
      | .error _ => .error failure) =
    match result.toOption.map fun a => (⟨i, wrap a⟩ : Answer) with
      | some answer => .ok answer.response
      | none => .error failure := by
  cases result with
  | ok response => rfl
  | error e => rfl

/-- An answer of the model that has a text, as the handler returned it. -/
theorem encodes_answer {α : Type} {result : Except RaftError α} {wrap : α → Response}
    {encode : α → Json} {i : Nat} (hwrap : ∀ a, (wrap a).toDict = encode a)
    (h : ∀ answer, (result.toOption.map fun a => (⟨i, wrap a⟩ : Answer)) = some answer →
      fw.Encodes answer.response.toDict) :
    ∀ a, result = .ok a → fw.Encodes (encode a) := by
  rintro a rfl
  rw [← hwrap]
  exact h ⟨i, wrap a⟩ rfl

/-- Both ends together. -/
theorem exchange_of_route {ρ α : Type} {path : String} {decode : List (String × PyJson) → Posted ρ}
    {handle : ρ → NodeM α} {encode : α → Json} {read : PyJson → Except PyError α}
    {payload : List (String × Json)} {n : RaftNode} {r : ρ} {i : Nat} (name : String)
    (wrap : α → Response) (hlawful : fw.Lawful client)
    (hroute : createRaftRouter py clock path = some (runRoute decode handle encode))
    (hbody : fw.Encodes (.obj payload)) (hdecode : decode (ofMembers payload) = .request r)
    (hread : ∀ a, read (ofJson (encode a)) = .ok a) (hwrap : ∀ a, (wrap a).toDict = encode a)
    (hanswer : ∀ answer, ((handle r n).result.toOption.map fun a => (⟨i, wrap a⟩ : Answer)) =
      some answer → fw.Encodes answer.response.toDict) :
    (fw.serve (createRaftRouter py clock) path (.obj payload) n).node = (handle r n).node ∧
      (fw.serve (createRaftRouter py clock) path (.obj payload) n).writes = (handle r n).writes ∧
      ∀ (t : HTTPTransport) (targetId : NodeId) (address : String),
        t.addresses targetId = some address →
        client.post (address ++ path) (.obj payload) =
          .ok (fw.serve (createRaftRouter py clock) path (.obj payload) n).response →
        (t.call client name path targetId (.obj payload) read).map wrap =
          match (handle r n).result.toOption.map fun a => (⟨i, wrap a⟩ : Answer) with
            | some answer => .ok answer.response
            | none => .error (.transportError s!"{name} to {targetId} failed") := by
  obtain ⟨hnode, hwrites⟩ := serve_handles (n := n) hlawful hroute hbody hdecode
  refine ⟨hnode, hwrites, fun t targetId address haddress hpost => ?_⟩
  rw [call_answers name hlawful hroute hbody hdecode hread (encodes_answer hwrap hanswer) haddress
    hpost]
  exact answered _ _ _ _

variable (py clock p)

/-- **A call over HTTP delivers.**  A posted request does to the target what delivering it does in
the model, with the same durable effects.  Where its response comes back, the caller gets the answer
of the model, or a `TransportError` if the handler raised. -/
theorem http_exchange_delivers (hlawful : fw.Lawful client) (i : Nat) (request : Request)
    (hbody : fw.Encodes request.toDict)
    (hanswer : ∀ answer, (p.deliver clock i request).answer = some answer →
      fw.Encodes answer.response.toDict) :
    (fw.serve (createRaftRouter py clock) request.path request.toDict p.node).node =
        (p.deliver clock i request).process.node ∧
      (fw.serve (createRaftRouter py clock) request.path request.toDict p.node).writes =
        (p.deliver clock i request).writes ∧
      ∀ (t : HTTPTransport) (targetId : NodeId) (address : String),
        t.addresses targetId = some address →
        client.post (address ++ request.path) request.toDict =
          .ok (fw.serve (createRaftRouter py clock) request.path request.toDict p.node).response →
        t.send py client targetId request = match (p.deliver clock i request).answer with
          | some answer => .ok answer.response
          | none => .error (.transportError s!"{request.name} to {targetId} failed") := by
  cases request with
  | requestVote r =>
    exact exchange_of_route "RequestVote" .requestVote hlawful rfl hbody
      (congrArg (route "Invalid RequestVote payload") (requestVoteFromDict_toDict py r))
      (requestVoteResponseFromDict_toDict py) (fun _ => rfl) hanswer
  | appendEntries r =>
    exact exchange_of_route "AppendEntries" .appendEntries hlawful rfl hbody
      (congrArg (route "Invalid AppendEntries payload") (appendEntriesFromDict_toDict py r))
      (appendEntriesResponseFromDict_toDict py) (fun _ => rfl) hanswer
  | installSnapshot r =>
    exact exchange_of_route "InstallSnapshot" .installSnapshot hlawful rfl hbody
      (congrArg (route "Invalid InstallSnapshot payload") (installSnapshotFromDict_toDict py r))
      (installSnapshotResponseFromDict_toDict py) (fun _ => rfl) hanswer
  | timeoutNow r =>
    exact exchange_of_route "TimeoutNow" .timeoutNow hlawful rfl hbody
      (congrArg (route "Invalid TimeoutNow payload") (timeoutNowFromDict_toDict py r))
      (timeoutNowResponseFromDict_toDict py) (fun _ => rfl) hanswer

end Calls

/-- The transport of "a", which knows one other member. -/
def transportToB : HTTPTransport :=
  .new fun nodeId => if nodeId = "b" then some "http://b:8000/" else none

/-- A server of one node, as it answers its next body. -/
def serverOf (n : RaftNode) (path : String) (body : Json) : PlainResponse :=
  (plainFramework.serve (createRaftRouter plainPython ⟨0, 0⟩) path body n).response

/-- The call to stand for election at once, posted to the member that has the first write. -/
theorem http_exchange_delivers_firstWrite : ∃ p, afterFirstWrite.process "b" = some p ∧
    transportToB.send plainPython (plainClient "http://b:8000" (serverOf p.node)) "b"
        (.timeoutNow ⟨1, "a"⟩) =
      match (p.deliver ⟨0, 0⟩ 0 (.timeoutNow ⟨1, "a"⟩)).answer with
        | some answer => .ok answer.response
        | none => .error (.transportError "TimeoutNow to b failed") := by
  have hup : (afterFirstWrite.process "b").isSome := by decide +kernel
  obtain ⟨p, hp⟩ := Option.isSome_iff_exists.mp hup
  have haddress : transportToB.addresses "b" = some "http://b:8000" := by decide +kernel
  obtain ⟨-, -, hcall⟩ := http_exchange_delivers plainPython ⟨0, 0⟩ p
    (plainFramework_lawful "http://b:8000" (serverOf p.node)) 0 (.timeoutNow ⟨1, "a"⟩) trivial
    (fun _ _ => trivial)
  exact ⟨p, hp, hcall transportToB "b" "http://b:8000" haddress (plainClient_post _ _ _ _)⟩

/-! ## 3. Whatever comes back -/

section Raises

variable (py : Interpreter)

/-- `int` raises an exception that is not caught for an infinity alone. -/
theorem toInt_uncaught {value : PyJson} {e : PyError} (h : value.toInt py = .error e)
    (he : ¬ e.Caught) : ∃ negative, value = .float (.infinity negative) := by
  cases value with
  | int n => cases h
  | bool b => cases h
  | float x =>
    cases x with
    | finite negative mantissa exponent => cases h
    | infinity negative => exact ⟨negative, rfl⟩
    | nan =>
      cases h
      exact absurd trivial he
  | str s =>
    rw [toInt] at h
    split at h
    · cases h
    · cases h
      exact absurd trivial he
  | null =>
    cases h
    exact absurd trivial he
  | arr items =>
    cases h
    exact absurd trivial he
  | obj members =>
    cases h
    exact absurd trivial he

/-- `data[key]` raises what is caught. -/
theorem getItem_caught {data : PyJson} {key : String} {e : PyError}
    (h : data.getItem key = .error e) : e.Caught := by
  unfold getItem at h
  split at h
  · split at h
    · cases h
    · cases h
      trivial
  · cases h
    trivial

/-- An answer that is read raises an exception that is not caught for an infinite term alone. -/
theorem answerFromDict_uncaught {key : String} {data : PyJson} :
    (∃ e, answerFromDict py key data = .error e ∧ ¬ e.Caught) ↔
      ∃ members negative, data = .obj members ∧
        lookup members "term" = some (.float (.infinity negative)) := by
  constructor
  · rintro ⟨e, h, he⟩
    have hfound : ∃ value, data.getItem "term" = .ok value := by
      rcases hterm : data.getItem "term" with e' | value
      · unfold answerFromDict at h
        rw [hterm] at h
        cases h
        exact absurd (getItem_caught hterm) he
      · exact ⟨value, rfl⟩
    obtain ⟨value, hterm⟩ := hfound
    have hread : answerFromDict py key data = (value.toInt py >>= fun term =>
        data.getItem key >>= fun flag => .ok (term, truth flag)) := by
      unfold answerFromDict
      rw [hterm]
      rfl
    rw [hread] at h
    have hint : value.toInt py = .error e := by
      rcases hvalue : value.toInt py with e' | term
      · rw [hvalue] at h
        cases h
        rfl
      · rw [hvalue] at h
        change (data.getItem key >>= fun flag => Except.ok (term, truth flag)) = _ at h
        rcases hflag : data.getItem key with e' | flag
        · rw [hflag] at h
          cases h
          exact absurd (getItem_caught hflag) he
        · rw [hflag] at h
          cases h
    obtain ⟨negative, rfl⟩ := toInt_uncaught py hint he
    cases data with
    | obj members =>
      refine ⟨members, negative, rfl, ?_⟩
      simp only [getItem] at hterm
      rcases hlookup : lookup members "term" with _ | value
      · rw [hlookup] at hterm
        cases hterm
      · rw [hlookup] at hterm
        exact congrArg some (Except.ok.inj hterm)
    | _ => cases hterm
  · rintro ⟨members, negative, rfl, hterm⟩
    refine ⟨.overflowError, ?_, id⟩
    have hread : (PyJson.obj members).getItem "term" = .ok (.float (.infinity negative)) := by
      simp only [getItem, hterm]
    unfold answerFromDict
    rw [hread]
    rfl

theorem map_error_iff {ε α β : Type} {f : α → β} {x : Except ε α} {e : ε} :
    x.map f = .error e ↔ x = .error e := by
  cases x <;> simp [Except.map]

section Outcomes

variable {R : Type} (client : Client R)

/-- A response that makes a method raise. -/
def Upsets (response : R) : Prop :=
  (∃ e, client.json response = .error e ∧ ¬ e.Caught) ∨
    ∃ members negative, client.json response = .ok (.obj members) ∧
      lookup members "term" = some (.float (.infinity negative))

/-- An exception that is not caught comes from an infinite term. -/
def FailsOnInfinity {α : Type} (decode : PyJson → Except PyError α) : Prop :=
  ∀ data, (∃ e, decode data = .error e ∧ ¬ e.Caught) ↔
    ∃ members negative, data = .obj members ∧
      lookup members "term" = some (.float (.infinity negative))

theorem failsOnInfinity_answer {α : Type} (key : String) (f : Int × Bool → α) :
    FailsOnInfinity fun data => (answerFromDict py key data).map f := fun _ =>
  (exists_congr fun _ => and_congr_left' map_error_iff).trans (answerFromDict_uncaught py)

/-- Something that is no `TransportError` comes out. -/
def Escapes {α : Type} (x : Except CallError α) : Prop :=
  ∃ e, x = .error e ∧ ¬ e.IsTransportError

theorem escapes_map {α β : Type} {f : α → β} {x : Except CallError α} :
    Escapes (x.map f) ↔ Escapes x :=
  exists_congr fun _ => and_congr_left' map_error_iff

theorem not_escapes_transportError {α : Type} (message : String) :
    ¬ Escapes (.error (.transportError message) : Except CallError α) := by
  rintro ⟨e, h, he⟩
  cases h
  exact he trivial

theorem readResponse_escapes {α : Type} {decode : PyJson → Except PyError α}
    (hdecode : FailsOnInfinity decode) (name : String) (targetId : NodeId) (response : R) :
    Escapes (readResponse client name targetId decode response) ↔ Upsets client response := by
  have hread : (∃ e, (client.json response >>= decode) = .error e ∧ ¬ e.Caught) ↔
      Upsets client response := by
    unfold Upsets
    rcases client.json response with e | data
    · constructor
      · rintro ⟨e', h, he⟩
        cases h
        exact Or.inl ⟨e, rfl, he⟩
      · rintro (⟨e', h, he⟩ | ⟨members, negative, h, -⟩)
        · cases h
          exact ⟨e, rfl, he⟩
        · cases h
    · refine (hdecode data).trans ⟨?_, ?_⟩
      · rintro ⟨members, negative, rfl, h⟩
        exact Or.inr ⟨members, negative, rfl, h⟩
      · rintro (⟨e, h, -⟩ | ⟨members, negative, h, hterm⟩)
        · cases h
        · exact ⟨members, negative, Except.ok.inj h, hterm⟩
  rw [← hread]
  unfold readResponse
  rcases client.json response >>= decode with e | answer
  · by_cases he : e.Caught
    · simp [he, not_escapes_transportError]
    · simp [he, Escapes, CallError.IsTransportError]
  · simp [Escapes]

/-- The first `try` lets out what is no `HTTPError`, the second what is not caught. -/
theorem settle_escapes {α : Type} {decode : PyJson → Except PyError α}
    (hdecode : FailsOnInfinity decode) (name : String) (targetId : NodeId)
    (fetched : Except ClientError R) :
    Escapes (settle client name targetId decode fetched) ↔
      fetched = .error .other ∨ ∃ response, fetched = .ok response ∧ Upsets client response := by
  rcases fetched with e | response
  · cases e with
    | httpError => simp [settle, not_escapes_transportError]
    | other => simp [settle, Escapes, CallError.IsTransportError]
  · simpa [settle] using readResponse_escapes client hdecode name targetId response

theorem call_escapes {α : Type} {decode : PyJson → Except PyError α}
    (hdecode : FailsOnInfinity decode) (t : HTTPTransport) (name path : String) (targetId : NodeId)
    (body : Json) :
    Escapes (t.call client name path targetId body decode) ↔
      ∃ address, t.addresses targetId = some address ∧
        (client.fetch (address ++ path) body = .error .other ∨
          ∃ response, client.fetch (address ++ path) body = .ok response ∧
            Upsets client response) := by
  rcases haddress : t.addresses targetId with _ | address
  · have hcall : t.call client name path targetId body decode =
        .error (.transportError s!"Unknown node: {targetId}") := by
      unfold HTTPTransport.call HTTPTransport.url
      rw [haddress]
      rfl
    simp [hcall, not_escapes_transportError]
  · rw [call_known haddress, settle_escapes client hdecode]
    simp

/-- **What leaves a method that is no `TransportError`.**  Whatever a target answers, or whoever
answers in its place, a method lets out an exception of the client that is no `HTTPError`, and what
the reader fails with on the body of a response that reports success, or on an infinite term in
it; nothing else. -/
theorem http_call_raises (t : HTTPTransport) (targetId : NodeId) (request : Request) :
    Escapes (t.send py client targetId request) ↔
      ∃ address, t.addresses targetId = some address ∧
        (client.fetch (address ++ request.path) request.toDict = .error .other ∨
          ∃ response, client.fetch (address ++ request.path) request.toDict = .ok response ∧
            Upsets client response) := by
  cases request with
  | requestVote r =>
    exact escapes_map.trans
      (call_escapes client (failsOnInfinity_answer py "vote_granted" _) t "RequestVote" _ _ _)
  | appendEntries r =>
    exact escapes_map.trans
      (call_escapes client (failsOnInfinity_answer py "success" _) t "AppendEntries" _ _ _)
  | installSnapshot r =>
    exact escapes_map.trans
      (call_escapes client (failsOnInfinity_answer py "success" _) t "InstallSnapshot" _ _ _)
  | timeoutNow r =>
    exact escapes_map.trans
      (call_escapes client (failsOnInfinity_answer py "accepted" _) t "TimeoutNow" _ _ _)

end Outcomes

end Raises

end PyRaftKv
