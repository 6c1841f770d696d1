/-
# `transport/http.py` and `api/raft.py`: calls over HTTP

Both ends of a call.  A caller posts a JSON body to a path of the target's address and reads the
JSON of the answer; a route of the target decodes the body, has its node handle the request and
returns the answer.  The four methods of the caller are one definition, and so are the four routes.

`httpx` and FastAPI are parameters.  A client posts a JSON value to a URL; a framework serves a
table of routes, and `Framework.Lawful` is what the routes rely on: a posted object gets to its
route, what the route returns gets back, and an exception becomes an error status.
-/
import PyRaftKv.Transport.Encoding

namespace PyRaftKv

open Formats PyJson

/-! ## 1. The caller -/

/-- What a call of the client raises. -/
inductive ClientError
  /-- An `httpx.HTTPError`. -/
  | httpError
  /-- Anything else, for an invalid URL or a body that has no JSON text. -/
  | other
deriving DecidableEq

/-- An `httpx.Client`. -/
structure Client (R : Type) where
  post : String → Json → Except ClientError R
  raiseForStatus : R → Except ClientError Unit
  json : R → Except PyError PyJson

/-- The first `try` of a method. -/
def Client.fetch {R : Type} (client : Client R) (url : String) (body : Json) :
    Except ClientError R := do
  let response ← client.post url body
  client.raiseForStatus response
  return response

/-- What a method raises. -/
inductive CallError
  | transportError (message : String)
  /-- An exception of the client that is no `HTTPError`. -/
  | clientRaised
  /-- An exception of a reader that is not caught. -/
  | raised (e : PyError)
deriving DecidableEq

def CallError.IsTransportError : CallError → Prop
  | .transportError _ => True
  | _ => False

structure HTTPTransport where
  addresses : NodeId → Option String

namespace HTTPTransport

/-- `address.rstrip("/")`. -/
def rstripSlash (address : String) : String :=
  String.ofList (address.toList.rdropWhile (· = '/'))

/-- `HTTPTransport(addresses)`. -/
def new (addresses : NodeId → Option String) : HTTPTransport :=
  { addresses := fun nodeId => (addresses nodeId).map rstripSlash }

variable {R : Type} (t : HTTPTransport) (py : Interpreter) (client : Client R)

/-- `_url`. -/
def url (targetId : NodeId) (path : String) : Except CallError String :=
  match t.addresses targetId with
  | none => .error (.transportError s!"Unknown node: {targetId}")
  | some address => .ok (address ++ path)

/-- The second `try` of a method. -/
def readResponse {α : Type} (name : String) (targetId : NodeId)
    (decode : PyJson → Except PyError α) (response : R) : Except CallError α :=
  match client.json response >>= decode with
  | .ok answer => .ok answer
  | .error e =>
    if e.Caught then .error (.transportError s!"Invalid {name} response from {targetId}")
    else .error (.raised e)

/-- What a method makes of the outcome of the first. -/
def settle {α : Type} (name : String) (targetId : NodeId) (decode : PyJson → Except PyError α) :
    Except ClientError R → Except CallError α
  | .error .httpError => .error (.transportError s!"{name} to {targetId} failed")
  | .error .other => .error .clientRaised
  | .ok response => readResponse client name targetId decode response

def call {α : Type} (name path : String) (targetId : NodeId) (body : Json)
    (decode : PyJson → Except PyError α) : Except CallError α := do
  let url ← t.url targetId path
  settle client name targetId decode (client.fetch url body)

def requestVote (targetId : NodeId) (request : RequestVoteRequest) :
    Except CallError RequestVoteResponse :=
  t.call client "RequestVote" "/raft/request-vote" targetId (requestVoteToDict request)
    (requestVoteResponseFromDict py)

def appendEntries (targetId : NodeId) (request : AppendEntriesRequest) :
    Except CallError AppendEntriesResponse :=
  t.call client "AppendEntries" "/raft/append-entries" targetId (appendEntriesToDict request)
    (appendEntriesResponseFromDict py)

def installSnapshot (targetId : NodeId) (request : InstallSnapshotRequest) :
    Except CallError InstallSnapshotResponse :=
  t.call client "InstallSnapshot" "/raft/install-snapshot" targetId (installSnapshotToDict request)
    (installSnapshotResponseFromDict py)

def timeoutNow (targetId : NodeId) (request : TimeoutNowRequest) :
    Except CallError TimeoutNowResponse :=
  t.call client "TimeoutNow" "/raft/timeout-now" targetId (timeoutNowToDict request)
    (timeoutNowResponseFromDict py)

/-- The method for a request. -/
def send (targetId : NodeId) : Request → Except CallError Response
  | .requestVote r => (t.requestVote py client targetId r).map .requestVote
  | .appendEntries r => (t.appendEntries py client targetId r).map .appendEntries
  | .installSnapshot r => (t.installSnapshot py client targetId r).map .installSnapshot
  | .timeoutNow r => (t.timeoutNow py client targetId r).map .timeoutNow

end HTTPTransport

/-- The name of a request in the messages of the transport. -/
def Request.name : Request → String
  | .requestVote _ => "RequestVote"
  | .appendEntries _ => "AppendEntries"
  | .installSnapshot _ => "InstallSnapshot"
  | .timeoutNow _ => "TimeoutNow"

def Request.path : Request → String
  | .requestVote _ => "/raft/request-vote"
  | .appendEntries _ => "/raft/append-entries"
  | .installSnapshot _ => "/raft/install-snapshot"
  | .timeoutNow _ => "/raft/timeout-now"

def Request.toDict : Request → Json
  | .requestVote r => requestVoteToDict r
  | .appendEntries r => appendEntriesToDict r
  | .installSnapshot r => installSnapshotToDict r
  | .timeoutNow r => timeoutNowToDict r

def Response.toDict : Response → Json
  | .requestVote r => requestVoteResponseToDict r
  | .appendEntries r => appendEntriesResponseToDict r
  | .installSnapshot r => installSnapshotResponseToDict r
  | .timeoutNow r => timeoutNowResponseToDict r

/-! ## 2. The target -/

/-- How a route ends. -/
inductive RouteResult
  | returned (body : Json)
  | httpException (statusCode : Nat) (detail : String)
  /-- Another exception leaves it. -/
  | raised

/-- What a route leaves: the node, its durable effects, and how it ended. -/
structure Routed where
  node : RaftNode
  writes : List Write := []
  result : RouteResult

/-- A route, given the payload and run on the node. -/
abbrev Route : Type := List (String × PyJson) → RaftNode → Routed

/-- A route decodes, handles and encodes. -/
def runRoute {ρ α : Type} (decode : List (String × PyJson) → Posted ρ) (handle : ρ → NodeM α)
    (encode : α → Json) : Route := fun payload n =>
  match decode payload with
  | .request request =>
    let o := handle request n
    { node := o.node, writes := o.writes
      result := match o.result with
        | .ok response => .returned (encode response)
        | .error _ => .raised }
  | .badRequest detail => { node := n, result := .httpException 400 detail }
  | .raised _ => { node := n, result := .raised }

section Router

variable (py : Interpreter) (clock : Clock)

/-- `create_raft_router`. -/
def createRaftRouter (path : String) : Option Route :=
  if path = "/raft/request-vote" then
    some (runRoute (requestVoteRoute py) (RaftNode.handleRequestVote clock)
      requestVoteResponseToDict)
  else if path = "/raft/append-entries" then
    some (runRoute (appendEntriesRoute py) (RaftNode.handleAppendEntries clock)
      appendEntriesResponseToDict)
  else if path = "/raft/install-snapshot" then
    some (runRoute (installSnapshotRoute py) (RaftNode.handleInstallSnapshot clock)
      installSnapshotResponseToDict)
  else if path = "/raft/timeout-now" then
    some (runRoute (timeoutNowRoute py) RaftNode.handleTimeoutNow timeoutNowResponseToDict)
  else none

end Router

/-! ## 3. What lies between -/

/-- What serving a posted body leaves. -/
structure Served (R : Type) where
  node : RaftNode
  writes : List Write := []
  response : R

/-- A web framework: what it does with the body a client posts to a path, given the routes. -/
structure Framework (R : Type) where
  serve : (String → Option Route) → String → Json → RaftNode → Served R
  /-- The values that both ends write as a JSON text. -/
  Encodes : Json → Prop

namespace Framework

variable {R : Type}

/-- What the routes rely on, for the bodies and the answers that have a JSON text. -/
structure Lawful (fw : Framework R) (client : Client R) : Prop where
  /-- The route of a path is given the members of the posted object. -/
  runs : ∀ {routes : String → Option Route} {path : String} {route : Route}
    {payload : List (String × Json)} (n : RaftNode), routes path = some route →
    fw.Encodes (.obj payload) →
      (fw.serve routes path (.obj payload) n).node = (route (ofMembers payload) n).node ∧
        (fw.serve routes path (.obj payload) n).writes = (route (ofMembers payload) n).writes
  /-- The client reads what the route returned. -/
  returns : ∀ {routes : String → Option Route} {path : String} {route : Route}
    {payload : List (String × Json)} {n : RaftNode} {answer : Json}, routes path = some route →
    fw.Encodes (.obj payload) → (route (ofMembers payload) n).result = .returned answer →
    fw.Encodes answer →
      client.raiseForStatus (fw.serve routes path (.obj payload) n).response = .ok () ∧
        client.json (fw.serve routes path (.obj payload) n).response = .ok (ofJson answer)
  /-- An exception that leaves a route is an error status. -/
  fails : ∀ {routes : String → Option Route} {path : String} {route : Route}
    {payload : List (String × Json)} {n : RaftNode}, routes path = some route →
    fw.Encodes (.obj payload) → (route (ofMembers payload) n).result = .raised →
      client.raiseForStatus (fw.serve routes path (.obj payload) n).response = .error .httpError

end Framework

/-! ## 4. A plain client and a plain framework -/

structure PlainResponse where
  status : Nat
  body : List Char

/-- What a plain framework makes of the end of a route. -/
def RouteResult.toResponse : RouteResult → PlainResponse
  | .returned body => ⟨200, body.dump Json.compact⟩
  | .httpException statusCode detail =>
    ⟨statusCode, (Json.obj [("detail", .str detail)]).dump Json.compact⟩
  | .raised => ⟨500, "Internal Server Error".toList⟩

/-- It reads the text of the body and writes the text of the answer. -/
def plainFramework : Framework PlainResponse where
  serve routes path body n :=
    match routes path, plainPython.loads (body.dump Json.compact) with
    | some route, .ok (.obj payload) =>
      let o := route payload n
      { node := o.node, writes := o.writes, response := o.result.toResponse }
    | _, _ => { node := n, response := ⟨404, []⟩ }
  Encodes _ := True

/-- The client of a network with one server in it. -/
def plainClient (address : String) (serve : String → Json → PlainResponse) :
    Client PlainResponse where
  post url body := .ok (serve (String.ofList (url.toList.drop address.toList.length)) body)
  raiseForStatus response :=
    if 200 ≤ response.status ∧ response.status ≤ 299 then .ok () else .error .httpError
  json response := plainPython.loads response.body

theorem plainClient_post (address path : String) (serve : String → Json → PlainResponse)
    (body : Json) :
    (plainClient address serve).post (address ++ path) body = .ok (serve path body) := by
  have hpath : String.ofList ((address ++ path).toList.drop address.toList.length) = path := by
    rw [String.toList_append, List.drop_left, String.ofList_toList]
  simp only [plainClient, hpath]

theorem plainFramework_serve {routes : String → Option Route} {path : String} {route : Route}
    (hroute : routes path = some route) (payload : List (String × Json)) (n : RaftNode) :
    plainFramework.serve routes path (.obj payload) n =
      { node := (route (ofMembers payload) n).node
        writes := (route (ofMembers payload) n).writes
        response := (route (ofMembers payload) n).result.toResponse } := by
  have hread : plainPython.loads ((Json.obj payload).dump Json.compact) =
      .ok (.obj (ofMembers payload)) := by
    rw [plainPython_reads, ofJson]
  simp only [plainFramework, hroute, hread]

theorem plainFramework_lawful (address : String) (serve : String → Json → PlainResponse) :
    plainFramework.Lawful (plainClient address serve) where
  runs n hroute _ := by
    rw [plainFramework_serve hroute]
    exact ⟨rfl, rfl⟩
  returns hroute _ hanswer _ := by
    rw [plainFramework_serve hroute, hanswer]
    exact ⟨rfl, plainPython_reads _⟩
  fails hroute _ hraised := by
    rw [plainFramework_serve hroute, hraised]
    rfl

end PyRaftKv
