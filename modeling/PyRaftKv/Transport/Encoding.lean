/-
# `transport/serialization.py`: encoding requests, encoding and decoding answers

`Serialization.lean` has the decoders of requests.  Here is the other half: what each side writes,
and how the caller reads an answer.  The four answers are one shape under two keys.
-/
import PyRaftKv.Cluster
import PyRaftKv.Formats.Dicts
import PyRaftKv.Raft.Journal
import PyRaftKv.Transport.Serialization

namespace PyRaftKv

open Formats PyJson

/-! ## 1. Requests -/

def requestVoteToDict (request : RequestVoteRequest) : Json :=
  .obj [("term", .int request.term), ("candidate_id", .str request.candidateId),
    ("last_log_index", .int request.lastLogIndex), ("last_log_term", .int request.lastLogTerm)]

def appendEntriesToDict (request : AppendEntriesRequest) : Json :=
  .obj [("term", .int request.term), ("leader_id", .str request.leaderId),
    ("prev_log_index", .int request.prevLogIndex), ("prev_log_term", .int request.prevLogTerm),
    ("entries", .arr (request.entries.map (·.toJson))),
    ("leader_commit", .int request.leaderCommit)]

def timeoutNowToDict (request : TimeoutNowRequest) : Json :=
  .obj [("term", .int request.term), ("leader_id", .str request.leaderId)]

/-- A `dict[str, str]` with these items. -/
def itemsToJson (entries : List (String × String)) : Json :=
  .obj (entries.map fun (key, value) => (key, .str value))

def installSnapshotToDict (request : InstallSnapshotRequest) : Json :=
  .obj [("term", .int request.term), ("leader_id", .str request.leaderId),
    ("last_included_index", .int request.lastIncludedIndex),
    ("last_included_term", .int request.lastIncludedTerm),
    ("state", itemsToJson request.state.toList)]

/-! ## 2. Answers -/

def requestVoteResponseToDict (response : RequestVoteResponse) : Json :=
  .obj [("term", .int response.term), ("vote_granted", .bool response.voteGranted)]

def appendEntriesResponseToDict (response : AppendEntriesResponse) : Json :=
  .obj [("term", .int response.term), ("success", .bool response.success)]

def timeoutNowResponseToDict (response : TimeoutNowResponse) : Json :=
  .obj [("term", .int response.term), ("accepted", .bool response.accepted)]

def installSnapshotResponseToDict (response : InstallSnapshotResponse) : Json :=
  .obj [("term", .int response.term), ("success", .bool response.success)]

/-- `bool(value)`. -/
def truth : PyJson → Bool
  | .null => false
  | .bool b => b
  | .int n => n ≠ 0
  | .float (.finite _ mantissa _) => mantissa ≠ 0
  | .float _ => true
  | .str s => s ≠ ""
  | .arr items => !items.isEmpty
  | .obj members => !members.isEmpty

/-- A term and a flag under some key. -/
def answerFromDict (py : Interpreter) (key : String) (data : PyJson) :
    Except PyError (Int × Bool) := do
  let term ← data.getItem "term" >>= toInt py
  let flag ← data.getItem key
  return (term, truth flag)

variable (py : Interpreter)

def requestVoteResponseFromDict (data : PyJson) : Except PyError RequestVoteResponse :=
  (answerFromDict py "vote_granted" data).map fun (term, voteGranted) => { term, voteGranted }

def appendEntriesResponseFromDict (data : PyJson) : Except PyError AppendEntriesResponse :=
  (answerFromDict py "success" data).map fun (term, success) => { term, success }

def timeoutNowResponseFromDict (data : PyJson) : Except PyError TimeoutNowResponse :=
  (answerFromDict py "accepted" data).map fun (term, accepted) => { term, accepted }

def installSnapshotResponseFromDict (data : PyJson) : Except PyError InstallSnapshotResponse :=
  (answerFromDict py "success" data).map fun (term, success) => { term, success }

/-! ## 3. What is written is read -/

theorem requestVoteFromDict_toDict (r : RequestVoteRequest) :
    requestVoteFromDict py (ofJson (requestVoteToDict r)) = .ok r := by
  rfl

theorem commandFromDict_toJson (c : RaftCommand) :
    commandFromDict py (ofJson c.toJson) = .ok c := by
  rcases c with ⟨operation, key, _ | value⟩
  · exact congrArg (fun o => Except.ok (RaftCommand.mk o key none)) operation.ofText_text
  · exact congrArg (fun o => Except.ok (RaftCommand.mk o key (some value))) operation.ofText_text

theorem logEntryFromDict_toJson (e : LogEntry) :
    logEntryFromDict py (ofJson e.toJson) = .ok e := by
  have hindex : (ofJson e.toJson).getItem "index" = .ok (ofJson (.int e.index)) :=
    getItem_ofJson rfl
  have hterm : (ofJson e.toJson).getItem "term" = .ok (ofJson (.int e.term)) :=
    getItem_ofJson rfl
  have hcommand : (ofJson e.toJson).getItem "command" = .ok (ofJson e.command.toJson) :=
    getItem_ofJson rfl
  unfold logEntryFromDict
  rw [hindex, hterm, hcommand]
  change commandFromDict py (ofJson e.command.toJson) >>= _ = _
  rw [commandFromDict_toJson]
  rfl

/-- A list whose items are read is read. -/
theorem mapM_logEntryFromDict (entries : List LogEntry) :
    (ofItems (entries.map (·.toJson))).mapM (logEntryFromDict py) = .ok entries := by
  induction entries with
  | nil => rfl
  | cons e entries ih =>
    rw [List.map_cons, ofItems, List.mapM_cons, logEntryFromDict_toJson, ih]
    rfl

theorem appendEntriesFromDict_toDict (r : AppendEntriesRequest) :
    appendEntriesFromDict py (ofJson (appendEntriesToDict r)) = .ok r := by
  have hread : appendEntriesFromDict py (ofJson (appendEntriesToDict r)) =
      (ofItems (r.entries.map (·.toJson))).mapM (logEntryFromDict py) >>= fun entries =>
        .ok { r with entries := entries } := by
    rfl
  rw [hread, mapM_logEntryFromDict]
  rfl

theorem timeoutNowFromDict_toDict (r : TimeoutNowRequest) :
    timeoutNowFromDict py (ofJson (timeoutNowToDict r)) = .ok r := by
  rfl

/-- The keys of a `dict[str, str]` are distinct. -/
theorem items_itemsToJson {d : Dict} {entries : List (String × String)}
    (h : entries.Perm d.toList) :
    items (ofMembers (entries.map fun (key, value) => (key, .str value))) =
      ofMembers (entries.map fun (key, value) => (key, .str value)) := by
  refine items_of_nodup ?_
  rw [ofMembers_eq_map, List.map_map, List.map_map]
  exact keys_nodup_of_perm h

/-- The members of a `dict[str, str]`. -/
theorem mapM_stateItem (l : List (String × String)) :
    (ofMembers (l.map fun (key, value) => (key, .str value))).mapM (stateItem py) = .ok l := by
  induction l with
  | nil => rfl
  | cons m l ih =>
    rw [List.map_cons, ofMembers, List.mapM_cons, ih]
    rfl

theorem installSnapshotFromDict_toDict (r : InstallSnapshotRequest) :
    installSnapshotFromDict py (ofJson (installSnapshotToDict r)) = .ok r := by
  have hread : installSnapshotFromDict py (ofJson (installSnapshotToDict r)) =
      (items (ofMembers (r.state.toList.map fun (key, value) => (key, .str value)))).mapM
        (stateItem py) >>= fun state =>
          .ok { r with state := state.foldl (fun d (key, value) => d.insert key value) ∅ } := by
    rfl
  rw [hread, items_itemsToJson (.refl _), mapM_stateItem]
  change Except.ok { r with state := r.state.toList.foldl _ ∅ } = _
  rw [foldl_insert_of_perm (.refl _)]

theorem requestVoteResponseFromDict_toDict (r : RequestVoteResponse) :
    requestVoteResponseFromDict py (ofJson (requestVoteResponseToDict r)) = .ok r := by
  rfl

theorem appendEntriesResponseFromDict_toDict (r : AppendEntriesResponse) :
    appendEntriesResponseFromDict py (ofJson (appendEntriesResponseToDict r)) = .ok r := by
  rfl

theorem timeoutNowResponseFromDict_toDict (r : TimeoutNowResponse) :
    timeoutNowResponseFromDict py (ofJson (timeoutNowResponseToDict r)) = .ok r := by
  rfl

theorem installSnapshotResponseFromDict_toDict (r : InstallSnapshotResponse) :
    installSnapshotResponseFromDict py (ofJson (installSnapshotResponseToDict r)) = .ok r := by
  rfl

end PyRaftKv
