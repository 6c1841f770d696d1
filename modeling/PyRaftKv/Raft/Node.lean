/-
# `raft/node.py`: what `RaftNode` does while it holds its lock

Every method of the source takes `_raft_lock` for one or more stretches and lets go of it in
between.  Each stretch is one definition here, named after its method and, where a method has
several, after its place in it.  `NodeM` runs a stretch: it threads the node, stops at the first
error, and lists the durable effects in their order, each with the node as it was when the effect
was asked for.

A node has a data directory; the branches of the source for a node without one do nothing.
-/
import PyRaftKv.Raft.Leader
import PyRaftKv.Raft.Persistence
import PyRaftKv.Raft.Replication

namespace PyRaftKv

/-! ## 1. The node -/

structure RaftNode where
  nodeId : NodeId
  members : Members
  state : RaftState
  snapshot : RaftSnapshot
  log : RaftLog
  /-- The number of the log object, one more at every assignment of a new one. -/
  logObject : Nat := 0
  store : KVStore
  timer : ElectionTimer
  election : ElectionTracker := {}
  replication : Option LeaderReplication := none
  lastReadQuorumTerm : Option Int := none
  lastReadQuorumTime : Option Nat := none
  leadershipTransferInProgress : Bool := false

/-- `_read_lease_duration`, in milliseconds. -/
def readLeaseDuration : Nat := 500

/-- The time a stretch runs at, and the timeout drawn if it resets the timer. -/
structure Clock where
  now : Nat
  timeout : Nat

/-- What a leader sends a follower to bring it up to date. -/
inductive ReplicationRequest
  | appendEntries (request : AppendEntriesRequest)
  | installSnapshot (request : InstallSnapshotRequest)

def ReplicationRequest.term : ReplicationRequest → Int
  | .appendEntries r => r.term
  | .installSnapshot r => r.term

/-! ## 2. Running a stretch -/

/-- A durable effect and the node that asked for it. -/
structure Effect where
  node : RaftNode
  write : Write

structure Outcome (α : Type) where
  result : Except RaftError α
  node : RaftNode
  effects : List Effect

/-- The durable effects alone. -/
def Outcome.writes {α : Type} (o : Outcome α) : List Write := o.effects.map (·.write)

def NodeM (α : Type) : Type := RaftNode → Outcome α

namespace NodeM

variable {α β : Type}

protected def pure (a : α) : NodeM α := fun n => ⟨.ok a, n, []⟩

protected def bind (m : NodeM α) (f : α → NodeM β) : NodeM β := fun n =>
  match m n with
  | ⟨.error e, n', ws⟩ => ⟨.error e, n', ws⟩
  | ⟨.ok a, n', ws⟩ =>
    match f a n' with
    | ⟨r, n'', ws'⟩ => ⟨r, n'', ws ++ ws'⟩

instance : Monad NodeM where
  pure := NodeM.pure
  bind := NodeM.bind

def get : NodeM RaftNode := fun n => ⟨.ok n, n, []⟩

def modify (f : RaftNode → RaftNode) : NodeM Unit := fun n => ⟨.ok (), f n, []⟩

def raise (e : RaftError) : NodeM α := fun n => ⟨.error e, n, []⟩

/-- A call that raises or answers, and changes nothing. -/
def lift : Except RaftError α → NodeM α
  | .ok a => NodeM.pure a
  | .error e => raise e

def persist (ws : List Write) : NodeM Unit := fun n => ⟨.ok (), n, ws.map fun w => ⟨n, w⟩⟩

end NodeM

namespace RaftNode

open NodeM

def persistState : NodeM Unit := do persist (saveState (← get).state)

/-- The entries of `before` and `after` that the two lists share at the front. -/
def commonPrefixLength : List LogEntry → List LogEntry → Nat
  | b :: before, a :: after => if b = a then commonPrefixLength before after + 1 else 0
  | _, _ => 0

/-- `_persist_log_change`. -/
def persistLogChange (before after : List LogEntry) : NodeM Unit :=
  if before = after then pure ()
  else
    let common := commonPrefixLength before after
    let newSuffix := after.drop common
    match before[common]? with
    | none => persist (appendLogEntries newSuffix)
    | some replaced => do persist (← lift (replaceLogSuffix replaced.index newSuffix))

/-- `apply_committed_entries(self.state, self.log, self.store)`. -/
def applyCommitted : NodeM Unit := fun n =>
  match applyCommittedEntries n.state n.log n.store with
  | (r, state, store) => ⟨r, { n with state, store }, []⟩

/-- `self.replication = None`, unless the node leads. -/
def dropReplication (n : RaftNode) : RaftNode :=
  if n.state.role ≠ .leader then { n with replication := none } else n

/-- `self.state.become_follower(term, leader_id)`. -/
def becomeFollower (term : Int) (leaderId : Option NodeId := none) : NodeM Unit := do
  let state ← lift ((← get).state.becomeFollower term leaderId)
  modify fun n => { n with state }

/-- `if self.state.current_term != previous_term: self._persist_state()`. -/
def persistTerm (previousTerm : Int) : NodeM Unit := do
  if (← get).state.currentTerm ≠ previousTerm then persistState

/-! ## 3. Starting -/

/-- What a start leaves: the node or the error, and the durable effects up to there. -/
structure Startup where
  result : Except RaftError RaftNode
  writes : List Write

/-- `RaftNode.__init__` on a data directory. -/
def init (nodeId : NodeId) (members : Members) (d : DataDir) (clock : Clock) : Startup :=
  if nodeId ∉ members then ⟨.error (.valueError "node_id must be a cluster member"), []⟩
  else
    let state := d.loadState nodeId
    let snapshot := d.loadSnapshot
    match d.loadLog with
    | .error e => ⟨.error e, []⟩
    | .ok log =>
      if snapshot.lastIncludedIndex < log.baseIndex then
        ⟨.error (.runtimeError "Raft log is compacted beyond durable snapshot"), []⟩
      else if snapshot.lastIncludedIndex = log.baseIndex ∧
          snapshot.lastIncludedTerm ≠ log.baseTerm then
        ⟨.error (.runtimeError "Raft snapshot conflicts with log boundary"), []⟩
      else
        -- the snapshot may have been written before a crash kept the journal from following
        match (if snapshot.lastIncludedIndex > log.baseIndex then
            (log.installSnapshotBoundary snapshot.lastIncludedIndex
              snapshot.lastIncludedTerm).map fun log => (log, saveLog log)
          else .ok (log, [])) with
        | .error e => ⟨.error e, []⟩
        | .ok (log, ws) =>
          let (state, ws) :=
            if state.commitIndex < snapshot.lastIncludedIndex then
              let state := { state with commitIndex := snapshot.lastIncludedIndex }
              (state, ws ++ saveState state)
            else (state, ws)
          if state.commitIndex > log.lastIndex then
            ⟨.error (.runtimeError "Persisted commit index exceeds Raft log"), ws⟩
          else
            let store := KVStore.restore {} snapshot.state
            let state := { state with lastApplied := snapshot.lastIncludedIndex }
            match applyCommittedEntries state log store with
            | (.error e, _, _) => ⟨.error e, ws⟩
            | (.ok (), state, store) =>
              ⟨.ok {
                nodeId, members, snapshot, log, store
                state := { state with role := .follower, leaderId := none }
                timer := .reset clock.now clock.timeout }, ws⟩

/-! ## 4. Snapshots -/

/-- The node with a snapshot and the log above it, a new object that the table refers to as well. -/
def compacted (n : RaftNode) (snapshot : RaftSnapshot) (log : RaftLog) : RaftNode :=
  { n with
    snapshot, log
    logObject := n.logObject + 1
    replication := n.replication.map fun r => { r with logObject := n.logObject + 1 } }

def createSnapshot : NodeM Bool := do
  let n ← get
  let snapshotIndex := min n.state.commitIndex n.state.lastApplied
  if snapshotIndex ≤ n.log.baseIndex then return false
  match n.log.termAt snapshotIndex with
  | none => raise (.runtimeError "Snapshot boundary is missing from Raft log")
  | some snapshotTerm =>
    let snapshot ← lift (RaftSnapshot.new snapshotIndex snapshotTerm n.store.snapshot)
    persist (saveSnapshot snapshot)
    let log ← lift ((← lift n.log.copy).compactThrough snapshotIndex)
    persist (saveLog log)
    persistState
    modify fun n => n.compacted snapshot log
    return true

/-! ## 5. Inbound calls -/

/-- `handle_request_vote`. -/
def handleRequestVote (clock : Clock) (request : RequestVoteRequest) :
    NodeM RequestVoteResponse := do
  let n ← get
  let (response, state) ← lift
    (PyRaftKv.handleRequestVote n.state request n.log.lastIndex n.log.lastTerm)
  modify fun n => { n with state }
  persistState
  if response.voteGranted then
    modify fun n => { n with timer := .reset clock.now clock.timeout }
  modify dropReplication
  return response

/-- `handle_append_entries`. -/
def handleAppendEntries (clock : Clock) (request : AppendEntriesRequest) :
    NodeM AppendEntriesResponse := do
  let before ← get
  let (result, state, log, store) :=
    PyRaftKv.handleAppendEntries before.state before.log request before.store
  modify fun n => { n with state, log, store }
  let response ← lift result
  persistLogChange before.log.entries log.entries
  if state.persisted ≠ before.state.persisted then persistState
  if response.success then
    modify fun n => { n with timer := .reset clock.now clock.timeout }
  modify dropReplication
  return response

/-- `handle_install_snapshot`. -/
def handleInstallSnapshot (clock : Clock) (request : InstallSnapshotRequest) :
    NodeM InstallSnapshotResponse := do
  let previousTerm := (← get).state.currentTerm
  if request.term < previousTerm then return ⟨previousTerm, false⟩
  becomeFollower request.term (some request.leaderId)
  modify fun n => { n with replication := none }
  let n ← get
  let refuse : NodeM InstallSnapshotResponse := do
    persistTerm previousTerm
    return ⟨n.state.currentTerm, false⟩
  if request.lastIncludedIndex < 0 ∨ request.lastIncludedTerm < 0 then refuse
  else if request.lastIncludedIndex < n.snapshot.lastIncludedIndex then do
    persistTerm previousTerm
    modify fun n => { n with timer := .reset clock.now clock.timeout }
    return ⟨n.state.currentTerm, true⟩
  else if n.state.commitIndex > request.lastIncludedIndex ∧
      n.log.termAt request.lastIncludedIndex ≠ some request.lastIncludedTerm then refuse
  else do
    let snapshot ← lift
      (RaftSnapshot.new request.lastIncludedIndex request.lastIncludedTerm request.state)
    let copied ← lift n.log.copy
    match copied.installSnapshotBoundary request.lastIncludedIndex request.lastIncludedTerm with
    | .error _ => refuse
    | .ok log =>
      let commitIndex := max n.state.commitIndex request.lastIncludedIndex
      if commitIndex > log.lastIndex then refuse
      else do
        persist (saveSnapshot snapshot)
        persist (saveLog log)
        modify fun n => { n with
          snapshot, log
          logObject := n.logObject + 1
          store := n.store.restore snapshot.state
          state := { n.state with commitIndex, lastApplied := request.lastIncludedIndex } }
        applyCommitted
        persistState
        modify fun n => { n with timer := .reset clock.now clock.timeout }
        return ⟨n.state.currentTerm, true⟩

/-- `handle_timeout_now`. -/
def handleTimeoutNow (request : TimeoutNowRequest) : NodeM TimeoutNowResponse := do
  let previousTerm := (← get).state.currentTerm
  if request.term < previousTerm then return ⟨previousTerm, false⟩
  if request.term > previousTerm then becomeFollower request.term (some request.leaderId)
  let state := (← get).state
  let accepted : Bool := state.role = .follower ∧ state.leaderId = some request.leaderId
  persistTerm previousTerm
  if accepted then modify fun n => { n with timer := .expireNow }
  return ⟨state.currentTerm, accepted⟩

/-! ## 6. Elections -/

/-- `_initialize_leader_replication`. -/
def initializeLeaderReplication : NodeM Unit := do
  let n ← get
  if n.state.role ≠ .leader then modify fun n => { n with replication := none }
  else if n.replication.isNone then do
    let r ← lift (LeaderReplication.new n.state n.log n.logObject n.members)
    modify fun n => { n with replication := some r }

/-- `tick`, up to where it lets go of the lock: the request for every peer, if there is one. -/
def tickStart (clock : Clock) : NodeM (Option RequestVoteRequest) := do
  let n ← get
  let (requests, state, timer, election) ← lift
    (startElectionIfNeeded n.state n.timer n.election n.members n.log.lastIndex n.log.lastTerm
      clock.now clock.timeout)
  modify fun n => { n with state, timer, election }
  if state.currentTerm ≠ n.state.currentTerm ∨ state.votedFor ≠ n.state.votedFor then persistState
  if state.role = .leader then do
    initializeLeaderReplication
    return none
  else return requests

/-- `tick`, for one answer to a request it sent. -/
def tickResponse (peerId : NodeId) (request : RequestVoteRequest)
    (response : RequestVoteResponse) : NodeM Unit := do
  let n ← get
  if n.state.role ≠ .candidate ∨ n.state.currentTerm ≠ request.term then return ()
  let (_, election, state) ← lift (n.election.recordVote n.state n.members peerId response)
  modify fun n => { n with election, state }
  if state.currentTerm ≠ n.state.currentTerm ∨ state.votedFor ≠ n.state.votedFor then persistState
  if state.role = .leader then initializeLeaderReplication
  else if state.role = .follower then modify fun n => { n with replication := none }

/-! ## 7. Replication to one follower -/

/-- One turn of the loop of `_replicate_to_follower`, up to the call: the request to send, or
`none` where the method returns `False`. -/
def replicateBuild (followerId : NodeId) : NodeM (Option ReplicationRequest) := do
  let n ← get
  if n.state.role ≠ .leader then return none
  match n.replication with
  | none => return none
  | some r =>
    if r.nextIndex followerId ≤ n.log.baseIndex then
      if n.snapshot.lastIncludedIndex ≠ n.log.baseIndex ∨
          n.snapshot.lastIncludedTerm ≠ n.log.baseTerm then
        raise (.runtimeError "Compacted log has no matching snapshot")
      else
        return some (.installSnapshot {
          term := n.state.currentTerm
          leaderId := n.nodeId
          lastIncludedIndex := n.snapshot.lastIncludedIndex
          lastIncludedTerm := n.snapshot.lastIncludedTerm
          state := n.snapshot.state })
    else
      let request ← lift (r.buildRequest n.state n.log followerId (some n.state.commitIndex))
      return some (.appendEntries request)

/-- One turn of the loop of `_replicate_to_follower`, after the call: what the method returns,
or `none` where it goes on. -/
def replicateResponse (followerId : NodeId) (request : ReplicationRequest) (term : Int)
    (success : Bool) : NodeM (Option Bool) := do
  let n ← get
  match n.replication with
  | none => return some false
  | some r =>
    if n.state.role ≠ .leader ∨ n.state.currentTerm ≠ request.term then return some false
    else if term > n.state.currentTerm then do
      becomeFollower term
      persistState
      modify fun n => { n with replication := none }
      return some false
    else
      match request with
      | .installSnapshot snapshotRequest =>
        if !success then return some false
        else do
          let r ← lift (r.recordSnapshotSuccess followerId snapshotRequest.lastIncludedIndex)
          modify fun n => { n with replication := some r }
          return if r.nextIndex followerId ≤ n.log.lastIndex then none else some true
      | .appendEntries appendRequest =>
        if success then do
          let r ← lift (r.recordSuccess followerId appendRequest)
          modify fun n => { n with replication := some r }
          return if r.nextIndex followerId ≤ n.log.lastIndex ∨
            appendRequest.leaderCommit < n.state.commitIndex then none else some true
        else do
          let r ← lift (r.recordFailure followerId)
          modify fun n => { n with replication := some r }
          return none

/-! ## 8. `replicate_log` and `submit_commands` -/

/-- `replicate_log`, before its round. -/
def replicateLogStart : NodeM Unit := do
  if (← get).state.role ≠ .leader then
    raise (.notLeaderError "Only the leader can replicate log entries")
  else do
    initializeLeaderReplication
    if (← get).replication.isNone then
      raise (.runtimeError "Leader replication state is unavailable")

/-- `_replicate_followers_concurrently`, before its loops: the followers, or none. -/
def roundStart : NodeM (List NodeId) := do
  if (← get).state.role ≠ .leader then return []
  else do
    initializeLeaderReplication
    return ((← get).replication.map (·.followers)).getD []

/-- `replicate_log`, after its round. -/
def replicateLogFinish : NodeM Unit := do
  let n ← get
  match n.replication with
  | none => return ()
  | some r =>
    if n.state.role ≠ .leader then return ()
    else
      let commitIndex := r.advanceCommitIndex n.state n.log n.members
      modify fun n => { n with state := { n.state with commitIndex } }
      if commitIndex ≠ n.state.commitIndex then do
        persistState
        applyCommitted

/-- The checks of `submit_commands` on one command. -/
def validateCommand (command : RaftCommand) : Except RaftError Unit :=
  match command.operation with
  | .put =>
    if command.value.isNone then .error (.valueError "PUT command requires a value") else .ok ()
  | .delete => .ok ()
  | .other name _ => .error (.valueError s!"Unsupported command: {name}")

/-- `[self.log.append(term, command) for command in commands]`. -/
def appendCommands (term : Int) : List RaftCommand → RaftLog →
    Except RaftError (List LogEntry × RaftLog)
  | [], log => .ok ([], log)
  | command :: rest, log => do
    let (entry, log) ← log.append term command
    let (entries, log) ← appendCommands term rest log
    pure (entry :: entries, log)

/-- `submit_commands`, up to the call of `replicate_log`: the entries it appended. -/
def submitStart (commands : List RaftCommand) : NodeM (List LogEntry) := do
  let n ← get
  if commands.isEmpty then return []
  if n.leadershipTransferInProgress then
    raise (.leadershipTransferInProgressError "Leader is transferring leadership")
  else if n.state.role ≠ .leader then
    raise (.notLeaderError s!"Node {n.nodeId} is not the leader")
  else do
    lift (commands.forM validateCommand)
    let (entries, log) ← lift (appendCommands n.state.currentTerm commands n.log)
    modify fun n => { n with log }
    persist (appendLogEntries entries)
    initializeLeaderReplication
    return entries

/-- `submit_commands`, after `replicate_log`: the results. -/
def submitResults (entries : List LogEntry) : NodeM (List Bool) := do
  let n ← get
  if n.state.role ≠ .leader ∨ n.replication.isNone then return entries.map fun _ => false
  else return entries.map fun e => decide (n.state.commitIndex ≥ e.index)

/-! ## 9. Linearizable reads -/

/-- `_has_valid_read_lease`. -/
def hasValidReadLease (n : RaftNode) (now : Nat) : Bool :=
  n.state.role = .leader && n.lastReadQuorumTerm = some n.state.currentTerm &&
    match n.lastReadQuorumTime with
    | none => false
    | some time => time ≤ now && now - time < readLeaseDuration

/-- `linearizable_get`, up to the barrier: the value if a lease serves it. -/
def getStart (key : String) (now : Nat) : NodeM (Option (Option String)) := do
  let n ← get
  if n.state.role ≠ .leader then
    raise (.notLeaderError s!"Node {n.nodeId} is not the leader")
  else if n.hasValidReadLease now then do
    applyCommitted
    return some ((← get).store.get key)
  else return none

/-- `_confirm_read_quorum`, its first stretch: the term and the followers to confirm. -/
def confirmStart : NodeM (Int × List NodeId) := do
  let n ← get
  if n.state.role ≠ .leader then
    raise (.notLeaderError s!"Node {n.nodeId} is not the leader")
  else do
    initializeLeaderReplication
    match (← get).replication with
    | none => raise (.runtimeError "Leader replication state is unavailable")
    | some r => return (n.state.currentTerm, r.followers)

/-- `_confirm_read_quorum`, its last stretch. -/
def confirmFinish (readTerm : Int) (confirmed : List NodeId) (now : Nat) : NodeM Unit := do
  let n ← get
  if n.state.role ≠ .leader ∨ n.state.currentTerm ≠ readTerm then
    raise (.readQuorumError "Leadership changed during read confirmation")
  else if 1 + confirmed.length < n.members.quorumSize then
    raise (.readQuorumError "A current-term read quorum is unavailable")
  else do
    modify fun n => { n with
      lastReadQuorumTerm := some readTerm
      lastReadQuorumTime := some now }
    applyCommitted

/-- `linearizable_get`, after the barrier. -/
def getFinish (key : String) (now : Nat) : NodeM (Option String) := do
  let n ← get
  if !n.hasValidReadLease now then
    raise (.readQuorumError "Leadership changed after read confirmation")
  else return n.store.get key

/-! ## 10. Leadership transfer -/

/-- `transfer_leadership`, before its round: the term, or `none` where it returns `False`. -/
def transferStart (targetId : Option NodeId) : NodeM (Option Int) := do
  let n ← get
  if n.state.role ≠ .leader then
    raise (.notLeaderError s!"Node {n.nodeId} is not the leader")
  else do
    initializeLeaderReplication
    match (← get).replication with
    | none => return none
    | some r =>
      match targetId with
      | some target =>
        if target ∉ r.followers then raise (.valueError s!"Unknown transfer target: {target}")
        else do
          modify fun n => { n with leadershipTransferInProgress := true }
          return some n.state.currentTerm
      | none => do
        modify fun n => { n with leadershipTransferInProgress := true }
        return some n.state.currentTerm

/-- The smallest of a list of node ids, `min`. -/
def leastId : List NodeId → Option NodeId
  | [] => none
  | id :: ids =>
    match leastId ids with
    | none => some id
    | some other => if other < id then some other else some id

/-- `transfer_leadership`, after its round: the follower that is told to start an election, or
`none` where the method returns `False`. -/
def transferSelect (targetId : Option NodeId) (transferTerm : Int)
    (results : NodeId → Option Bool) : NodeM (Option (NodeId × TimeoutNowRequest)) := do
  let n ← get
  match n.replication with
  | none => return none
  | some r =>
    if n.state.role ≠ .leader ∨ n.state.currentTerm ≠ transferTerm then return none
    else
      let eligible := r.followers.filter fun f =>
        results f = some true ∧ r.matchIndex f ≥ n.log.lastIndex
      let selected := match targetId with
        | none => leastId eligible
        | some target => if target ∈ eligible then some target else none
      return selected.map fun s => (s, ⟨transferTerm, n.nodeId⟩)

/-- `transfer_leadership`, after the call of TimeoutNow: what it returns. -/
def transferResponse (transferTerm : Int) (response : TimeoutNowResponse) : NodeM Bool := do
  let n ← get
  if n.state.role ≠ .leader ∨ n.state.currentTerm ≠ transferTerm then return false
  else if response.term > n.state.currentTerm then do
    becomeFollower response.term
    persistState
    modify fun n => { n with replication := none }
    return false
  else if !response.accepted then return false
  else do
    becomeFollower transferTerm
    modify fun n => { n with replication := none }
    return true

/-- The `finally` of `transfer_leadership`. -/
def transferEnd : NodeM Unit := modify fun n => { n with leadershipTransferInProgress := false }

end RaftNode

end PyRaftKv
