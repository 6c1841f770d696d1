/-
# `raft/vote.py`, `raft/election.py`, `raft/election_trigger.py`: elections

The source's `ElectionTracker` shares the node's `RaftState` and member set; here they are
arguments, and the tracker keeps what is its own.
-/
import PyRaftKv.Raft.State

namespace PyRaftKv

/-- A member set, `set[str]`: its elements in some order, each once. -/
structure Members where
  ids : List NodeId
  nodup : ids.Nodup := by decide

instance : Membership NodeId Members := ⟨fun m n => n ∈ m.ids⟩

instance (n : NodeId) (m : Members) : Decidable (n ∈ m) := inferInstanceAs (Decidable (n ∈ m.ids))

def Members.size (m : Members) : Nat := m.ids.length

/-- `members - {node_id}`. -/
def Members.others (m : Members) (n : NodeId) : List NodeId := m.ids.filter (· ≠ n)

/-! ## 1. `handle_request_vote` -/

def isCandidateLogUpToDate (candidateLastIndex candidateLastTerm localLastIndex
    localLastTerm : Int) : Bool :=
  if candidateLastTerm ≠ localLastTerm then candidateLastTerm > localLastTerm
  else candidateLastIndex ≥ localLastIndex

/-- `handle_request_vote` of `raft/vote.py`. -/
def handleRequestVote (state : RaftState) (request : RequestVoteRequest)
    (localLastIndex localLastTerm : Int) : Except RaftError (RequestVoteResponse × RaftState) :=
  if request.term < state.currentTerm then
    .ok (⟨state.currentTerm, false⟩, state)
  else do
    let state ← if request.term > state.currentTerm then state.becomeFollower request.term
      else pure state
    let canVote := state.votedFor = none ∨ state.votedFor = some request.candidateId
    let logIsCurrent := isCandidateLogUpToDate request.lastLogIndex request.lastLogTerm
      localLastIndex localLastTerm
    if canVote ∧ logIsCurrent then
      pure (⟨state.currentTerm, true⟩, { state with votedFor := some request.candidateId })
    else
      pure (⟨state.currentTerm, false⟩, state)

/-! ## 2. `ElectionTracker` -/

structure ElectionTracker where
  votesReceived : List NodeId := []
  active : Bool := false
deriving DecidableEq

/-- `quorum_size`. -/
def Members.quorumSize (m : Members) : Nat := m.size / 2 + 1

namespace ElectionTracker

def promoteIfQuorum (t : ElectionTracker) (state : RaftState) (members : Members) :
    Except RaftError (Bool × ElectionTracker × RaftState) :=
  if t.votesReceived.length < members.quorumSize then .ok (false, t, state)
  else do
    let state ← state.becomeLeader
    pure (true, { t with active := false }, state)

def start (_ : ElectionTracker) (state : RaftState) (members : Members) :
    Except RaftError (ElectionTracker × RaftState) := do
  let state := state.becomeCandidate
  let (_, t, state) ← promoteIfQuorum ⟨[state.nodeId], true⟩ state members
  pure (t, state)

/-- Adding a voter to the set `votes_received`. -/
def addVote (t : ElectionTracker) (voterId : NodeId) : ElectionTracker :=
  if voterId ∈ t.votesReceived then t
  else { t with votesReceived := voterId :: t.votesReceived }

def recordVote (t : ElectionTracker) (state : RaftState) (members : Members) (voterId : NodeId)
    (response : RequestVoteResponse) : Except RaftError (Bool × ElectionTracker × RaftState) :=
  if !t.active then .ok (false, t, state)
  else if response.term > state.currentTerm then do
    let state ← state.becomeFollower response.term
    pure (false, { t with active := false }, state)
  else if response.term < state.currentTerm then .ok (false, t, state)
  else if state.role ≠ .candidate then .ok (false, { t with active := false }, state)
  else if voterId ∉ members then .ok (false, t, state)
  else
    (if response.voteGranted then t.addVote voterId else t).promoteIfQuorum state members

end ElectionTracker

/-! ## 3. `start_election_if_needed` -/

/-- `start_election_if_needed`: the request for every peer, if there is one to send, with the
timer, the tracker and the state the function leaves. -/
def startElectionIfNeeded (state : RaftState) (timer : ElectionTimer) (election : ElectionTracker)
    (members : Members) (localLastIndex localLastTerm : Int) (now timeout : Nat) :
    Except RaftError (Option RequestVoteRequest × RaftState × ElectionTimer × ElectionTracker) :=
  if !timer.expired now then .ok (none, state, timer, election)
  else do
    let (election, state) ← election.start state members
    let timer := ElectionTimer.reset now timeout
    if state.role = .leader then pure (none, state, timer, election)
    else
      pure (some ⟨state.currentTerm, state.nodeId, localLastIndex, localLastTerm⟩, state, timer,
        election)

end PyRaftKv
