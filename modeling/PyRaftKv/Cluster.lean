/-
# The cluster: processes, threads, network, disks and the clock

A member is a data directory and, while it runs, a PROCESS: a `RaftNode`, the replication workers
in their slots, and the client calls in progress.  A call that lets go of the node's lock is kept
here with the place it has reached; its next stretch is a step of its own, so any other stretch of
any thread may come in between.

The network keeps every request and every answer for ever.  Delivering a request again is a
duplicate, delivering it late is a delay, never delivering it a loss; and an answer reaches the
worker that waits for it, or nobody.  A request is delivered only to its addressee, and only
requests that a node sent are delivered.

A crash stops a process between two durable effects of a stretch: of the effects the stretch asks
for, a first part is on disk, and nothing was answered or sent.

The last four fields of `Cluster` are history variables.  No step reads them.
-/
import PyRaftKv.Raft.Node

namespace PyRaftKv

/-! ## 1. Messages -/

inductive Request
  | requestVote (request : RequestVoteRequest)
  | appendEntries (request : AppendEntriesRequest)
  | installSnapshot (request : InstallSnapshotRequest)
  | timeoutNow (request : TimeoutNowRequest)

inductive Response
  | requestVote (response : RequestVoteResponse)
  | appendEntries (response : AppendEntriesResponse)
  | installSnapshot (response : InstallSnapshotResponse)
  | timeoutNow (response : TimeoutNowResponse)
deriving DecidableEq

/-- The term an answer carries. -/
def Response.term : Response → Int
  | .requestVote r => r.term
  | .appendEntries r => r.term
  | .installSnapshot r => r.term
  | .timeoutNow r => r.term

/-- A request on its way. -/
structure Rpc where
  source : NodeId
  target : NodeId
  request : Request

/-- An answer to the request at position `rpc` of the network. -/
structure Answer where
  rpc : Nat
  response : Response

def ReplicationRequest.toRequest : ReplicationRequest → Request
  | .appendEntries r => .appendEntries r
  | .installSnapshot r => .installSnapshot r

/-! ## 2. Workers and calls -/

/-- Where a worker that runs `_replicate_to_follower` is. -/
inductive WorkerState
  | queued
  | waiting (rpc : Nat) (request : ReplicationRequest)
  | finished (result : Except RaftError Bool)

/-- A task of the executor, as a slot of `_replication_futures` holds it. -/
structure Future where
  id : Nat
  state : WorkerState

/-- A round of `_replicate_followers_concurrently`: its tasks and its results so far. -/
structure Round where
  followers : List NodeId
  active : NodeId → Option Nat := fun _ => none
  results : NodeId → Option Bool := fun _ => none

/-- A run of `_confirm_read_quorum`, and when it began. -/
structure Barrier where
  readTerm : Int
  followers : List NodeId
  fresh : NodeId → Option Nat := fun _ => none
  confirmed : List NodeId := []
  failed : List NodeId := []
  startedAt : Nat
  firstRpc : Nat

/-- A write that `submit_commands` answered `True` for, with the term the answer was given in. -/
structure Acknowledgement where
  node : NodeId
  term : Int
  entry : LogEntry
deriving DecidableEq

/-- A call that has let go of the node's lock, and where it goes on. -/
inductive Call
  /-- `replicate_log`, called by `submit_commands` for some entries or by the background loop. -/
  | replicateLog (entries : List LogEntry)
  | replicateRound (entries : List LogEntry) (round : Option Round)
  | submitResults (entries : List LogEntry)
  /-- `send_heartbeats`, which `submit_commands` calls before it answers `True` for some writes. -/
  | sendHeartbeats (written : List Acknowledgement)
  | heartbeatRound (written : List Acknowledgement) (round : Option Round)
  /-- `linearizable_get`, with the writes acknowledged before it was called. -/
  | confirmRead (key : String) (acked : List Acknowledgement)
  | confirming (key : String) (acked : List Acknowledgement) (barrier : Barrier)
  | finishRead (key : String) (acked : List Acknowledgement) (readTerm : Int)
  | transferLeadership (targetId : Option NodeId)
  | transferRound (targetId : Option NodeId) (term : Int) (round : Option Round)
  | transferWaiting (term : Int) (rpc : Nat)

/-- A running member. -/
structure Process where
  node : RaftNode
  futures : NodeId → Option Future := fun _ => none
  calls : Nat → Option Call := fun _ => none
  /-- The call that holds `_replication_lock`. -/
  lockHolder : Option Nat := none
  nextId : Nat := 0

/-! ## 3. The cluster -/

structure Cluster where
  members : Members
  now : Nat := 0
  disk : NodeId → DataDir := fun _ => {}
  process : NodeId → Option Process := fun _ => none
  rpcs : List Rpc := []
  answers : List Answer := []
  /-- The entries leaders have committed, each when a leader's commit index first covered it. -/
  committed : List LogEntry := []
  acknowledged : List Acknowledgement := []
  /-- Who became leader in which term. -/
  leaders : List (Int × NodeId) := []
  /-- When a member last accepted an AppendEntries or an InstallSnapshot. -/
  contact : NodeId → Option Nat := fun _ => none

/-- What a stretch does: the process it leaves, its durable effects, what it sends and answers. -/
structure Turn where
  process : Process
  writes : List Write := []
  sends : List (NodeId × Request) := []
  answer : Option Answer := none
  acknowledged : List Acknowledgement := []

/-- The stretches of the threads of one process.  `timeout` is the election timeout drawn if the
stretch resets the timer. -/
inductive Op
  | tick (timeout : Nat)
  | voteAnswer (answer : Nat)
  | deliver (rpc : Nat) (timeout : Nat)
  | createSnapshot
  -- workers
  | workerBuild (follower : NodeId)
  | workerAnswer (follower : NodeId) (answer : Nat)
  | workerFail (follower : NodeId)
  -- `replicate_log`, `send_heartbeats` and `submit_commands`
  | submitCommands (commands : List RaftCommand)
  | replicateLog
  | sendHeartbeats
  | lockReplication (call : Nat)
  | beginRound (call : Nat)
  | submitTask (call : Nat) (follower : NodeId)
  | collectTask (call : Nat) (follower : NodeId)
  | finishRound (call : Nat)
  | submitResults (call : Nat)
  -- `linearizable_get`
  | linearizableGet (key : String)
  | confirmStart (call : Nat)
  | confirmPoll (call : Nat) (follower : NodeId)
  | confirmFinish (call : Nat)
  | getFinish (call : Nat)
  -- `transfer_leadership`
  | transferLeadership (targetId : Option NodeId)
  | transferAnswer (call : Nat) (answer : Nat)
  | transferFail (call : Nat)

namespace Process

/-! ## 4. One stretch of a thread -/

def setCall (p : Process) (id : Nat) (call : Option Call) : Process :=
  { p with calls := Function.update p.calls id call }

def newCall (p : Process) (call : Call) : Process :=
  { p with calls := Function.update p.calls p.nextId (some call), nextId := p.nextId + 1 }

def setFuture (p : Process) (f : NodeId) (future : Option Future) : Process :=
  { p with futures := Function.update p.futures f future }

/-- The call ends, and lets go of `_replication_lock` if it holds it. -/
def endCall (p : Process) (id : Nat) : Process :=
  { p.setCall id none with lockHolder := if p.lockHolder = some id then none else p.lockHolder }

/-- The call goes on without `_replication_lock`. -/
def release (p : Process) (id : Nat) (call : Call) : Process :=
  { p.setCall id (some call) with lockHolder := none }

/-- The process after a stretch that left `o`. -/
def after {α : Type} (p : Process) (o : Outcome α) : Process := { p with node := o.node }

/-- The call raises inside a round: the `finally` of a transfer, and the lock. -/
def abort (p : Process) (id : Nat) : Process :=
  match p.calls id with
  | some (.transferRound _ _ _) => (p.after (RaftNode.transferEnd p.node)).endCall id
  | _ => p.endCall id

/-- A new task in the slot of follower `f`. -/
def submitWorker (p : Process) (f : NodeId) : Nat × Process :=
  (p.nextId, { p.setFuture f (some ⟨p.nextId, .queued⟩) with nextId := p.nextId + 1 })

/-- An inbound request. -/
def deliver (p : Process) (clock : Clock) (rpc : Nat) : Request → Turn
  | .requestVote r =>
    let o := RaftNode.handleRequestVote clock r p.node
    { process := p.after o, writes := o.writes
      answer := o.result.toOption.map fun a => ⟨rpc, .requestVote a⟩ }
  | .appendEntries r =>
    let o := RaftNode.handleAppendEntries clock r p.node
    { process := p.after o, writes := o.writes
      answer := o.result.toOption.map fun a => ⟨rpc, .appendEntries a⟩ }
  | .installSnapshot r =>
    let o := RaftNode.handleInstallSnapshot clock r p.node
    { process := p.after o, writes := o.writes
      answer := o.result.toOption.map fun a => ⟨rpc, .installSnapshot a⟩ }
  | .timeoutNow r =>
    let o := RaftNode.handleTimeoutNow r p.node
    { process := p.after o, writes := o.writes
      answer := o.result.toOption.map fun a => ⟨rpc, .timeoutNow a⟩ }

/-- An answer as the loop of `_replicate_to_follower` reads it. -/
def replicationAnswer : Response → Option (Int × Bool)
  | .appendEntries a => some (a.term, a.success)
  | .installSnapshot a => some (a.term, a.success)
  | _ => none

/-- The stretch of a worker before its call.  `next` is the position the request will have. -/
def workerBuild (p : Process) (f : NodeId) (next : Nat) : Option Turn :=
  match p.futures f with
  | some ⟨id, .queued⟩ =>
    let o := RaftNode.replicateBuild f p.node
    match o.result with
    | .error e => some {
        process := (p.after o).setFuture f (some ⟨id, .finished (.error e)⟩)
        writes := o.writes }
    | .ok none => some {
        process := (p.after o).setFuture f (some ⟨id, .finished (.ok false)⟩)
        writes := o.writes }
    | .ok (some request) => some {
        process := (p.after o).setFuture f (some ⟨id, .waiting next request⟩)
        writes := o.writes
        sends := [(f, request.toRequest)] }
  | _ => none

/-- The stretch of a worker after its call. -/
def workerAnswer (p : Process) (f : NodeId) (answer : Answer) : Option Turn :=
  match p.futures f, replicationAnswer answer.response with
  | some ⟨id, .waiting rpc request⟩, some (term, success) =>
    if answer.rpc ≠ rpc then none
    else
      let o := RaftNode.replicateResponse f request term success p.node
      let state := match o.result with
        | .error e => .finished (.error e)
        | .ok none => .queued
        | .ok (some result) => .finished (.ok result)
      some { process := (p.after o).setFuture f (some ⟨id, state⟩), writes := o.writes }
  | _, _ => none

/-- The call of a worker raised `TransportError`. -/
def workerFail (p : Process) (f : NodeId) : Option Turn :=
  match p.futures f with
  | some ⟨id, .waiting _ _⟩ =>
    some { process := p.setFuture f (some ⟨id, .finished (.ok false)⟩) }
  | _ => none

/-- A call takes `_replication_lock` and runs its first stretch under it. -/
def lockReplication (p : Process) (id : Nat) : Option Turn :=
  if p.lockHolder ≠ none then none
  else
    let p := { p with lockHolder := some id }
    match p.calls id with
    | some (.replicateLog entries) =>
      let o := RaftNode.replicateLogStart p.node
      match o.result with
      | .error _ => some { process := (p.after o).endCall id, writes := o.writes }
      | .ok () => some {
          process := (p.after o).setCall id (some (.replicateRound entries none))
          writes := o.writes }
    | some (.sendHeartbeats written) =>
      some { process := p.setCall id (some (.heartbeatRound written none)) }
    | some (.transferLeadership targetId) =>
      let o := RaftNode.transferStart targetId p.node
      match o.result with
      | .ok (some term) => some {
          process := (p.after o).setCall id (some (.transferRound targetId term none))
          writes := o.writes }
      | _ => some { process := (p.after o).endCall id, writes := o.writes }
    | _ => none

/-- The round a call is in, and the call with another round. -/
def roundOf : Call → Option (Option Round × (Option Round → Call))
  | .replicateRound entries round => some (round, .replicateRound entries)
  | .heartbeatRound written round => some (round, .heartbeatRound written)
  | .transferRound targetId term round => some (round, .transferRound targetId term)
  | _ => none

/-- A call enters `_replicate_followers_concurrently`. -/
def beginRound (p : Process) (id : Nat) : Option Turn :=
  match (p.calls id).bind roundOf with
  | some (none, call) =>
    let o := RaftNode.roundStart p.node
    match o.result with
    | .error _ => some { process := (p.after o).abort id, writes := o.writes }
    | .ok followers => some {
        process := (p.after o).setCall id (some (call (some { followers })))
        writes := o.writes }
  | _ => none

/-- The first loop of a round, for one follower: a finished task gives up its slot and its result,
and a free slot gets a new task.  A task that raised makes the call raise. -/
def submitTask (p : Process) (id : Nat) (f : NodeId) : Option Turn :=
  match (p.calls id).bind roundOf with
  | some (some round, call) =>
    if f ∉ round.followers ∨ round.active f ≠ none then none
    else
      match p.futures f with
      | some ⟨_, .finished (.error _)⟩ => some { process := p.abort id }
      | some ⟨_, .finished (.ok result)⟩ =>
        let (task, p) := p.submitWorker f
        some { process := p.setCall id (some (call (some { round with
          results := Function.update round.results f (some result)
          active := Function.update round.active f (some task) }))) }
      | some ⟨task, _⟩ =>
        some { process := p.setCall id (some (call (some { round with
          active := Function.update round.active f (some task) }))) }
      | none =>
        let (task, p) := p.submitWorker f
        some { process := p.setCall id (some (call (some { round with
          active := Function.update round.active f (some task) }))) }
  | _ => none

/-- The second loop of a round, for one task of the round that has finished. -/
def collectTask (p : Process) (id : Nat) (f : NodeId) : Option Turn :=
  match (p.calls id).bind roundOf, p.futures f with
  | some (some round, call), some ⟨task, .finished result⟩ =>
    if round.active f ≠ some task then none
    else
      match result with
      | .error _ => some { process := p.abort id }
      | .ok result => some {
          process := (p.setFuture f none).setCall id (some (call (some { round with
            results := Function.update round.results f (some result) }))) }
  | _, _ => none

/-- A call leaves its round and runs the stretch after it.  The code leaves a round at its deadline
or with a quorum, and only when every follower has a task; here it may leave at any time, so that
what holds of every run of the model holds of every run of the code.  A run that is to be one of the
code has to ask every follower first. -/
def finishRound (p : Process) (id : Nat) (next : Nat) : Option Turn :=
  match p.calls id with
  | some (.replicateRound entries (some _)) =>
    let o := RaftNode.replicateLogFinish p.node
    match o.result with
    | .error _ => some { process := (p.after o).endCall id, writes := o.writes }
    | .ok () =>
      if entries.isEmpty then some { process := (p.after o).endCall id, writes := o.writes }
      else some { process := (p.after o).release id (.submitResults entries), writes := o.writes }
  | some (.heartbeatRound written (some _)) =>
    some { process := p.endCall id, acknowledged := written }
  | some (.transferRound targetId term (some round)) =>
    let o := RaftNode.transferSelect targetId term round.results p.node
    match o.result with
    | .ok (some (selected, request)) => some {
        process := (p.after o).setCall id (some (.transferWaiting term next))
        writes := o.writes
        sends := [(selected, .timeoutNow request)] }
    | _ => some {
        process := ((p.after o).after (RaftNode.transferEnd o.node)).endCall id
        writes := o.writes }
  | _ => none

/-- The last stretch of `submit_commands`, which goes on to send heartbeats. -/
def submitResults (p : Process) (id : Nat) : Option Turn :=
  match p.calls id with
  | some (.submitResults entries) =>
    let o := RaftNode.submitResults entries p.node
    match o.result with
    | .error _ => some { process := (p.after o).endCall id, writes := o.writes }
    | .ok results =>
      let written := ((entries.zip results).filter (·.2)).map fun r =>
        ⟨p.node.nodeId, p.node.state.currentTerm, r.1⟩
      some {
        process := if written.isEmpty then (p.after o).endCall id
          else (p.after o).setCall id (some (.sendHeartbeats written))
        writes := o.writes }
  | _ => none

/-- `_confirm_read_quorum` takes `_replication_lock`. -/
def confirmStart (p : Process) (id : Nat) (now next : Nat) : Option Turn :=
  match p.calls id with
  | some (.confirmRead key acked) =>
    if p.lockHolder ≠ none then none
    else
      let p := { p with lockHolder := some id }
      let o := RaftNode.confirmStart p.node
      match o.result with
      | .error _ => some { process := (p.after o).endCall id, writes := o.writes }
      | .ok (readTerm, followers) => some {
          process := (p.after o).setCall id (some (.confirming key acked
            { readTerm, followers, startedAt := now, firstRpc := next }))
          writes := o.writes }
  | _ => none

/-- The loop of `_confirm_read_quorum`, for one follower. -/
def confirmPoll (p : Process) (id : Nat) (f : NodeId) : Option Turn :=
  match p.calls id with
  | some (.confirming key acked b) =>
    if f ∉ b.followers ∨ f ∈ b.confirmed ∨ f ∈ b.failed then none
    else
      match p.futures f with
      | some ⟨_, .finished (.error _)⟩ => some { process := p.endCall id }
      | some ⟨task, .finished (.ok result)⟩ =>
        if b.fresh f = some task then
          let b := if result then { b with confirmed := f :: b.confirmed }
            else { b with failed := f :: b.failed }
          some { process := (p.setFuture f none).setCall id (some (.confirming key acked b)) }
        else
          let (task, p) := p.submitWorker f
          some { process := p.setCall id (some (.confirming key acked
            { b with fresh := Function.update b.fresh f (some task) })) }
      | some _ => some { process := p }
      | none =>
        let (task, p) := p.submitWorker f
        some { process := p.setCall id (some (.confirming key acked
          { b with fresh := Function.update b.fresh f (some task) })) }
  | _ => none

/-- `_confirm_read_quorum` ends its loop, which may be at any time, and runs its last stretch. -/
def confirmFinish (p : Process) (id : Nat) (now : Nat) : Option Turn :=
  match p.calls id with
  | some (.confirming key acked b) =>
    let o := RaftNode.confirmFinish b.readTerm b.confirmed now p.node
    match o.result with
    | .error _ => some { process := (p.after o).endCall id, writes := o.writes }
    | .ok () => some {
        process := (p.after o).release id (.finishRead key acked b.readTerm)
        writes := o.writes }
  | _ => none

/-- A leadership transfer ends: the `finally`, and the lock. -/
def transferDone (p : Process) (id : Nat) (writes : List Write) : Turn :=
  { process := (p.after (RaftNode.transferEnd p.node)).endCall id, writes }

def transferAnswer (p : Process) (id : Nat) (answer : Answer) : Option Turn :=
  match p.calls id, answer.response with
  | some (.transferWaiting term rpc), .timeoutNow response =>
    if answer.rpc ≠ rpc then none
    else
      let o := RaftNode.transferResponse term response p.node
      some ((p.after o).transferDone id o.writes)
  | _, _ => none

def turn (p : Process) (c : Cluster) (me : NodeId) : Op → Option Turn
  | .tick timeout =>
    if minTimeout ≤ timeout ∧ timeout ≤ maxTimeout then
      let o := RaftNode.tickStart ⟨c.now, timeout⟩ p.node
      some {
        process := p.after o
        writes := o.writes
        sends := match o.result with
          | .ok (some request) => (p.node.members.others me).map fun f => (f, .requestVote request)
          | _ => [] }
    else none
  | .voteAnswer i =>
    match c.answers[i]? with
    | some ⟨rpc, .requestVote response⟩ =>
      match c.rpcs[rpc]? with
      | some ⟨source, target, .requestVote request⟩ =>
        if source ≠ me then none
        else
          let o := RaftNode.tickResponse target request response p.node
          some { process := p.after o, writes := o.writes }
      | _ => none
    | _ => none
  | .deliver i timeout =>
    match c.rpcs[i]? with
    | some rpc =>
      if rpc.target = me ∧ minTimeout ≤ timeout ∧ timeout ≤ maxTimeout then
        some (p.deliver ⟨c.now, timeout⟩ i rpc.request)
      else none
    | none => none
  | .createSnapshot =>
    let o := RaftNode.createSnapshot p.node
    some { process := p.after o, writes := o.writes }
  | .workerBuild f => p.workerBuild f c.rpcs.length
  | .workerAnswer f i => (c.answers[i]?).bind (p.workerAnswer f)
  | .workerFail f => p.workerFail f
  | .submitCommands commands =>
    let o := RaftNode.submitStart commands p.node
    match o.result with
    | .ok (entry :: entries) => some {
        process := (p.after o).newCall (.replicateLog (entry :: entries))
        writes := o.writes }
    | _ => some { process := p.after o, writes := o.writes }
  | .replicateLog => some { process := p.newCall (.replicateLog []) }
  | .sendHeartbeats => some { process := p.newCall (.sendHeartbeats []) }
  | .lockReplication id => p.lockReplication id
  | .beginRound id => p.beginRound id
  | .submitTask id f => p.submitTask id f
  | .collectTask id f => p.collectTask id f
  | .finishRound id => p.finishRound id c.rpcs.length
  | .submitResults id => p.submitResults id
  | .linearizableGet key =>
    let o := RaftNode.getStart key c.now p.node
    match o.result with
    | .ok none => some {
        process := (p.after o).newCall (.confirmRead key c.acknowledged)
        writes := o.writes }
    | _ => some { process := p.after o, writes := o.writes }
  | .confirmStart id => p.confirmStart id c.now c.rpcs.length
  | .confirmPoll id f => p.confirmPoll id f
  | .confirmFinish id => p.confirmFinish id c.now
  | .getFinish id =>
    match p.calls id with
    | some (.finishRead key _ _) =>
      let o := RaftNode.getFinish key c.now p.node
      some { process := (p.after o).endCall id, writes := o.writes }
    | _ => none
  | .transferLeadership targetId => some { process := p.newCall (.transferLeadership targetId) }
  | .transferAnswer id i => (c.answers[i]?).bind (p.transferAnswer id)
  | .transferFail id =>
    match p.calls id with
    | some (.transferWaiting _ _) => some (p.transferDone id [])
    | _ => none

end Process

/-! ## 5. Steps of the cluster -/

inductive Action
  /-- Time passes. -/
  | elapse (milliseconds : Nat)
  /-- A member that is down starts from its data directory. -/
  | start (node : NodeId) (timeout : Nat)
  /-- It crashes after `effects` durable effects of its start. -/
  | startCrash (node : NodeId) (timeout effects : Nat)
  /-- A stretch of a running member, from start to end. -/
  | run (node : NodeId) (op : Op)
  /-- A running member crashes after `effects` durable effects of a stretch. -/
  | crash (node : NodeId) (op : Op) (effects : Nat)

namespace Cluster

/-- The entries above the committed ones that a node's commit index covers. -/
def newlyCommitted (committed : List LogEntry) (n : RaftNode) : List LogEntry :=
  n.log.entries.filter fun e => (committed.length : Int) < e.index ∧ e.index ≤ n.state.commitIndex

/-- The stretches in which a leader may advance its commit index. -/
def Op.advances : Op → Bool
  | .finishRound _ => true
  | _ => false

/-- The stretch accepted an AppendEntries or an InstallSnapshot. -/
def Turn.accepted (t : Turn) : Bool :=
  match t.answer with
  | some ⟨_, .appendEntries a⟩ => a.success
  | some ⟨_, .installSnapshot a⟩ => a.success
  | _ => false

/-- The cluster after a stretch of member `v`. -/
def finish (c : Cluster) (v : NodeId) (op : Op) (t : Turn) : Cluster :=
  let n := t.process.node
  { c with
    disk := Function.update c.disk v ((c.disk v).writes t.writes)
    process := Function.update c.process v (some t.process)
    rpcs := c.rpcs ++ t.sends.map fun s => ⟨v, s.1, s.2⟩
    answers := c.answers ++ t.answer.toList
    committed := if Op.advances op then c.committed ++ newlyCommitted c.committed n else c.committed
    acknowledged := c.acknowledged ++ t.acknowledged
    leaders := if n.state.role = .leader ∧ (n.state.currentTerm, v) ∉ c.leaders then
      c.leaders ++ [(n.state.currentTerm, v)] else c.leaders
    contact := if Turn.accepted t then Function.update c.contact v (some c.now) else c.contact }

/-- The cluster when `v` is down after some durable effects. -/
def down (c : Cluster) (v : NodeId) (ws : List Write) : Cluster :=
  { c with
    disk := Function.update c.disk v ((c.disk v).writes ws)
    process := Function.update c.process v none }

section Frame

variable (c : Cluster) {u v : NodeId} (op : Op) (t : Turn) (ws : List Write)

@[simp] theorem finish_process_self : (c.finish v op t).process v = some t.process :=
  Function.update_self _ _ _

@[simp] theorem finish_disk_self : (c.finish v op t).disk v = (c.disk v).writes t.writes :=
  Function.update_self _ _ _

@[simp] theorem down_process_self : (c.down v ws).process v = none := Function.update_self _ _ _

@[simp] theorem down_disk_self : (c.down v ws).disk v = (c.disk v).writes ws :=
  Function.update_self _ _ _

theorem finish_process_of_ne (h : u ≠ v) : (c.finish v op t).process u = c.process u :=
  Function.update_of_ne h _ _

theorem finish_disk_of_ne (h : u ≠ v) : (c.finish v op t).disk u = c.disk u :=
  Function.update_of_ne h _ _

theorem down_process_of_ne (h : u ≠ v) : (c.down v ws).process u = c.process u :=
  Function.update_of_ne h _ _

theorem down_disk_of_ne (h : u ≠ v) : (c.down v ws).disk u = c.disk u :=
  Function.update_of_ne h _ _

end Frame

def step (c : Cluster) : Action → Option Cluster
  | .elapse ms => some { c with now := c.now + ms }
  | .start v timeout =>
    match c.process v with
    | some _ => none
    | none =>
      if minTimeout ≤ timeout ∧ timeout ≤ maxTimeout then
        let s := RaftNode.init v c.members (c.disk v) ⟨c.now, timeout⟩
        match s.result with
        | .error _ => some (c.down v s.writes)
        | .ok n => some { c.down v s.writes with
            process := Function.update c.process v (some { node := n }) }
      else none
  | .startCrash v timeout effects =>
    match c.process v with
    | some _ => none
    | none =>
      let s := RaftNode.init v c.members (c.disk v) ⟨c.now, timeout⟩
      some (c.down v (s.writes.take effects))
  | .run v op =>
    match c.process v with
    | none => none
    | some p => (p.turn c v op).map (c.finish v op)
  | .crash v op effects =>
    match c.process v with
    | none => none
    | some p => (p.turn c v op).map fun t => { c.down v (t.writes.take effects) with
        committed := if Op.advances op ∧ effects ≠ 0 then
          c.committed ++ newlyCommitted c.committed t.process.node else c.committed }

/-- The cluster before any member has started. -/
def initial (members : Members) : Cluster := { members }

/-- Running a list of actions, none of which may be refused. -/
def runs (c : Cluster) : List Action → Option Cluster
  | [] => some c
  | a :: as => (c.step a).bind fun c => c.runs as

/-- One step of the cluster. -/
def Step (c c' : Cluster) : Prop := ∃ a, c.step a = some c'

/-- `c'` is reached from `c` in a run. -/
def Leads : Cluster → Cluster → Prop := Relation.ReflTransGen Step

/-- `c` is a state of some run. -/
def Reachable (members : Members) (c : Cluster) : Prop := Leads (initial members) c

end Cluster

end PyRaftKv
