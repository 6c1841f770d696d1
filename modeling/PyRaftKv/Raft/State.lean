/-
# `raft/state.py`, `raft/timer.py`, `raft/rpc.py`, `raft/snapshot.py`: the data of a node

The clock is an integer number of milliseconds, so the timer's 1.5 and 3.0 seconds are 1500 and
3000.  Where the source draws a random timeout, the drawn value is an argument.
-/
import PyRaftKv.Raft.Log
import PyRaftKv.Storage.Store

namespace PyRaftKv

abbrev NodeId := String

/-! ## 1. `RaftState` -/

inductive NodeRole
  | follower
  | candidate
  | leader
deriving DecidableEq

@[ext] structure RaftState where
  nodeId : NodeId
  commitIndex : Int := 0
  currentTerm : Int := 0
  votedFor : Option NodeId := none
  leaderId : Option NodeId := none
  role : NodeRole := .follower
  lastApplied : Int := 0
deriving DecidableEq

namespace RaftState

/-- `become_follower`, after its check that the term is not an older one. -/
def follow (s : RaftState) (term : Int) (leaderId : Option NodeId) : RaftState :=
  { s with
    votedFor := if term > s.currentTerm then none else s.votedFor
    currentTerm := term
    role := .follower
    leaderId := leaderId }

def becomeFollower (s : RaftState) (term : Int) (leaderId : Option NodeId := none) :
    Except RaftError RaftState :=
  if term < s.currentTerm then .error (.valueError "Cannot move to an older term")
  else .ok (s.follow term leaderId)

def becomeCandidate (s : RaftState) : RaftState :=
  { s with
    currentTerm := s.currentTerm + 1
    role := .candidate
    votedFor := some s.nodeId
    leaderId := none }

def becomeLeader (s : RaftState) : Except RaftError RaftState :=
  if s.role ≠ .candidate then .error (.runtimeError "Only a candidate can become leader")
  else .ok { s with role := .leader, leaderId := some s.nodeId }

theorem becomeFollower_ok {s : RaftState} {term : Int} (leaderId : Option NodeId)
    (h : s.currentTerm ≤ term) : s.becomeFollower term leaderId = .ok (s.follow term leaderId) :=
  if_neg (not_lt.mpr h)

end RaftState

/-! ## 2. `ElectionTimer` -/

def minTimeout : Nat := 1500
def maxTimeout : Nat := 3000

structure ElectionTimer where
  deadline : Nat
deriving DecidableEq

namespace ElectionTimer

/-- `reset` at time `now`, with the timeout `random.uniform` drew. -/
def reset (now timeout : Nat) : ElectionTimer := ⟨now + timeout⟩

def expired (t : ElectionTimer) (now : Nat) : Bool := t.deadline ≤ now

def expireNow : ElectionTimer := ⟨0⟩

end ElectionTimer

/-! ## 3. Messages -/

structure RequestVoteRequest where
  term : Int
  candidateId : NodeId
  lastLogIndex : Int
  lastLogTerm : Int
deriving DecidableEq

structure RequestVoteResponse where
  term : Int
  voteGranted : Bool
deriving DecidableEq

structure AppendEntriesRequest where
  term : Int
  leaderId : NodeId
  prevLogIndex : Int := 0
  prevLogTerm : Int := 0
  entries : List LogEntry := []
  leaderCommit : Int := 0
deriving DecidableEq

structure AppendEntriesResponse where
  term : Int
  success : Bool
deriving DecidableEq

structure TimeoutNowRequest where
  term : Int
  leaderId : NodeId
deriving DecidableEq

structure TimeoutNowResponse where
  term : Int
  accepted : Bool
deriving DecidableEq

structure InstallSnapshotRequest where
  term : Int
  leaderId : NodeId
  lastIncludedIndex : Int
  lastIncludedTerm : Int
  state : Dict

structure InstallSnapshotResponse where
  term : Int
  success : Bool
deriving DecidableEq

/-! ## 4. `RaftSnapshot` -/

/-- The version of an empty snapshot. -/
theorem start_version : (1 : Int) = 1 := rfl

/-- `RaftSnapshot`: what `__post_init__` checks is a field. -/
@[ext] structure RaftSnapshot where
  lastIncludedIndex : Int := 0
  lastIncludedTerm : Int := 0
  state : Dict := ∅
  version : Int := 1
  version_one : version = 1 := by first | exact start_version | decide
  index_nonneg : 0 ≤ lastIncludedIndex := by first | exact start_nonneg | decide
  term_nonneg : 0 ≤ lastIncludedTerm := by first | exact start_nonneg | decide
  term_zero : lastIncludedIndex = 0 → lastIncludedTerm = 0 := by first | exact start_zero | decide

/-- `RaftSnapshot(last_included_index, last_included_term, state)`. -/
def RaftSnapshot.new (index term : Int) (state : Dict) : Except RaftError RaftSnapshot :=
  if hidx : index < 0 then .error (.valueError "last_included_index cannot be negative")
  else if hterm : term < 0 then .error (.valueError "last_included_term cannot be negative")
  else if hzero : index = 0 ∧ term ≠ 0 then
    .error (.valueError "last_included_term must be zero at index zero")
  else .ok {
    lastIncludedIndex := index
    lastIncludedTerm := term
    state := state
    index_nonneg := boundary_nonneg hidx
    term_nonneg := boundary_nonneg hterm
    term_zero := boundary_zero hzero }

end PyRaftKv
