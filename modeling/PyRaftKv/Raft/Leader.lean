/-
# `raft/leader.py`: the leader's progress table

The source's `LeaderReplication` keeps references to the node's `state`, `log` and member set.  Here
the state, the log and the members are arguments, and the table keeps the number of the log object
that it refers to.  The node replaces its log object in two places: `create_snapshot` also sets
`replication.log` and `handle_install_snapshot` drops the table, so that it is always the node's.
-/
import PyRaftKv.Raft.Vote

namespace PyRaftKv

/-- `LeaderReplication`: what the leader knows of each follower. -/
structure LeaderReplication where
  followers : List NodeId
  nextIndex : NodeId → Int
  matchIndex : NodeId → Int
  /-- The number of the log object it refers to. -/
  logObject : Nat

/-- The last index a request covers, `last_replicated_index`. -/
def AppendEntriesRequest.lastReplicated (request : AppendEntriesRequest) : Int :=
  match request.entries.getLast? with
  | some e => e.index
  | none => request.prevLogIndex

namespace LeaderReplication

def new (state : RaftState) (log : RaftLog) (logObject : Nat) (members : Members) :
    Except RaftError LeaderReplication :=
  if state.role ≠ .leader then .error (.valueError "Replication state requires a leader")
  else if state.nodeId ∉ members then .error (.valueError "Leader must be a cluster member")
  else .ok {
    followers := members.others state.nodeId
    nextIndex := fun _ => log.lastIndex + 1
    matchIndex := fun _ => 0
    logObject }

def buildRequest (r : LeaderReplication) (state : RaftState) (log : RaftLog)
    (follower : NodeId) (leaderCommit : Option Int := none) :
    Except RaftError AppendEntriesRequest := do
  if follower ∉ r.followers then throw (.valueError s!"Unknown follower: {follower}")
  let nextIndex := r.nextIndex follower
  if nextIndex ≤ log.baseIndex then
    throw (.valueError s!"Follower {follower} requires a snapshot")
  let prevLogIndex := nextIndex - 1
  match log.termAt prevLogIndex with
  | none => throw (.valueError s!"Previous log entry {prevLogIndex} does not exist")
  | some prevLogTerm =>
    let entries ← log.entriesFrom nextIndex
    pure {
      term := state.currentTerm
      leaderId := state.nodeId
      prevLogIndex := prevLogIndex
      prevLogTerm := prevLogTerm
      entries := entries
      leaderCommit := leaderCommit.getD state.commitIndex }

/-- Setting the match index of a follower to the larger of the old and the new value, and its next
index to the one after. -/
def advance (r : LeaderReplication) (follower : NodeId) (index : Int) : LeaderReplication :=
  let matched := max (r.matchIndex follower) index
  { r with
    matchIndex := Function.update r.matchIndex follower matched
    nextIndex := Function.update r.nextIndex follower (matched + 1) }

def recordSuccess (r : LeaderReplication) (follower : NodeId) (request : AppendEntriesRequest) :
    Except RaftError LeaderReplication :=
  if follower ∉ r.followers then .error (.valueError s!"Unknown follower: {follower}")
  else .ok (r.advance follower request.lastReplicated)

def recordSnapshotSuccess (r : LeaderReplication) (follower : NodeId) (lastIncludedIndex : Int) :
    Except RaftError LeaderReplication :=
  if follower ∉ r.followers then .error (.valueError s!"Unknown follower: {follower}")
  else .ok (r.advance follower lastIncludedIndex)

def recordFailure (r : LeaderReplication) (follower : NodeId) :
    Except RaftError LeaderReplication :=
  if follower ∉ r.followers then .error (.valueError s!"Unknown follower: {follower}")
  else .ok { r with
    nextIndex := Function.update r.nextIndex follower (max 1 (r.nextIndex follower - 1)) }

/-- `replicated_indexes`, sorted in descending order. -/
def replicatedIndexes (r : LeaderReplication) (log : RaftLog) : List Int :=
  (log.lastIndex :: r.followers.map r.matchIndex).insertionSort (· ≥ ·)

/-- `advance_commit_index`: the commit index it leaves. -/
def advanceCommitIndex (r : LeaderReplication) (state : RaftState) (log : RaftLog)
    (members : Members) : Int :=
  match (r.replicatedIndexes log)[members.size / 2]? with
  | none => state.commitIndex
  | some candidateIndex =>
    if candidateIndex ≤ state.commitIndex then state.commitIndex
    else
      match log.get candidateIndex with
      | none => state.commitIndex
      | some entry =>
        if entry.term ≠ state.currentTerm then state.commitIndex else candidateIndex

end LeaderReplication

end PyRaftKv
