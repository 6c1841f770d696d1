/-
# `raft/state_machine.py`, `raft/commit.py`, `raft/replication.py`: the follower's side

These functions change the state, the log and the store they are given as they go, and a raise in
the middle leaves what was done so far.  So each returns the objects it was given next to its
result, also when the result is an error.
-/
import PyRaftKv.Raft.State

namespace PyRaftKv

/-! ## 1. The state machine -/

def applyCommand (store : KVStore) (command : RaftCommand) : Except RaftError KVStore :=
  match command.operation with
  | .put =>
    match command.value with
    | none => .error (.valueError "PUT command requires a value")
    | some value => .ok (store.put command.key value)
  | .delete => .ok (store.delete command.key).2
  | .other name _ => .error (.valueError s!"Unknown Raft command: {name}")

/-- The loop of `apply_committed_entries`, which runs once for each index that is committed and
not applied. -/
def applyEntries (log : RaftLog) : Nat → RaftState → KVStore →
    Except RaftError Unit × RaftState × KVStore
  | 0, state, store => (.ok (), state, store)
  | n + 1, state, store =>
    let nextIndex := state.lastApplied + 1
    match log.get nextIndex with
    | none => (.error (.runtimeError s!"Missing committed log entry {nextIndex}"), state, store)
    | some entry =>
      match applyCommand store entry.command with
      | .error e => (.error e, state, store)
      | .ok store => applyEntries log n { state with lastApplied := nextIndex } store

/-- `apply_committed_entries`. -/
def applyCommittedEntries (state : RaftState) (log : RaftLog) (store : KVStore) :
    Except RaftError Unit × RaftState × KVStore :=
  applyEntries log (state.commitIndex - state.lastApplied).toNat state store

/-! ## 2. The commit index of a follower -/

/-- `update_follower_commit`. -/
def updateFollowerCommit (state : RaftState) (log : RaftLog) (store : KVStore)
    (leaderCommit : Int) : Except RaftError Unit × RaftState × KVStore :=
  if leaderCommit ≤ state.commitIndex then (.ok (), state, store)
  else
    applyCommittedEntries { state with commitIndex := min leaderCommit log.lastIndex } log store

/-! ## 3. AppendEntries -/

/-- The loop "Synchronize follower log with the leader". -/
def syncEntries : List LogEntry → RaftLog → Except RaftError Unit × RaftLog
  | [], log => (.ok (), log)
  | entry :: rest, log =>
    match log.get entry.index with
    | none =>
      match log.appendEntry entry with
      | .error e => (.error e, log)
      | .ok log => syncEntries rest log
    | some existing =>
      if existing.term = entry.term then syncEntries rest log
      else
        match log.truncateFrom entry.index with
        | .error e => (.error e, log)
        | .ok log =>
          match log.appendEntry entry with
          | .error e => (.error e, log)
          | .ok log => syncEntries rest log

/-- `handle_append_entries` of `raft/replication.py`, called with a store as the node calls it. -/
def handleAppendEntries (state : RaftState) (log : RaftLog) (request : AppendEntriesRequest)
    (store : KVStore) : Except RaftError AppendEntriesResponse × RaftState × RaftLog × KVStore :=
  if request.term < state.currentTerm then
    (.ok ⟨state.currentTerm, false⟩, state, log, store)
  else
    match state.becomeFollower request.term (some request.leaderId) with
    | .error e => (.error e, state, log, store)
    | .ok state =>
      if request.prevLogIndex > log.lastIndex then
        (.ok ⟨state.currentTerm, false⟩, state, log, store)
      else if log.termAt request.prevLogIndex ≠ some request.prevLogTerm then
        (.ok ⟨state.currentTerm, false⟩, state, log, store)
      else
        match syncEntries request.entries log with
        | (.error e, log) => (.error e, state, log, store)
        | (.ok (), log) =>
          match updateFollowerCommit state log store request.leaderCommit with
          | (.error e, state, store) => (.error e, state, log, store)
          | (.ok (), state, store) => (.ok ⟨state.currentTerm, true⟩, state, log, store)

end PyRaftKv
