/-
# `raft/persistence.py`: the three files as texts

`Persistence.lean` keeps what the files of a data directory decode to, and a `Write` is one durable
effect.  Here a write is a few operations on files, between any two of which the process may stop,
and what a start reads is a text.

The state and the snapshot are replaced by `_atomic_write`, the journal by `_rewrite_log_records`;
records are appended to the journal in place.
-/
import PyRaftKv.Formats.Files
import PyRaftKv.Raft.LoadLog
import PyRaftKv.Transport.Encoding

namespace PyRaftKv

open Formats PyJson

/-! ## 1. Saving -/

def statePath : String := "raft-state.json"
def logPath : String := "raft-log.json"
def snapshotPath : String := "raft-snapshot.json"

/-- A name of `mkstemp` begins with a dot and is none of the three. -/
def IsTemp (name : String) : Prop := name ≠ statePath ∧ name ≠ logPath ∧ name ≠ snapshotPath

/-- What `save_state` writes. -/
def PersistedState.toJson (state : PersistedState) : Json :=
  .obj [("current_term", .int state.currentTerm), ("voted_for", state.votedFor.elim .null .str),
    ("commit_index", .int state.commitIndex)]

/-- What `save_snapshot` writes, where `entries` are the items of the state in the order that the
dict has them in. -/
def RaftSnapshot.toJson (snapshot : RaftSnapshot) (entries : List (String × String)) : Json :=
  .obj [("version", .int snapshot.version),
    ("last_included_index", .int snapshot.lastIncludedIndex),
    ("last_included_term", .int snapshot.lastIncludedTerm), ("state", itemsToJson entries)]

def PersistedState.text (state : PersistedState) : List Char := state.toJson.dump Json.compact

def RaftSnapshot.text (snapshot : RaftSnapshot) (entries : List (String × String)) : List Char :=
  (snapshot.toJson entries).dump Json.compact

/-- A write, with the name that `mkstemp` picks and the order of the items of a snapshot. -/
structure FileStep where
  tmp : String
  entries : List (String × String) := []
  write : Write

/-- The name is free, and the items are those of the snapshot. -/
structure FileStep.Fits (s : FileStep) : Prop where
  tmp : IsTemp s.tmp
  entries : ∀ snapshot, s.write = .saveSnapshot snapshot → s.entries.Perm snapshot.state.toList

/-- The operations of a write. -/
def FileStep.ops (s : FileStep) : List FileOp :=
  match s.write with
  | .saveState state => atomicWrite s.tmp statePath state.text
  | .saveSnapshot snapshot => atomicWrite s.tmp snapshotPath (snapshot.text s.entries)
  | .rewriteLog records => atomicWrite s.tmp logPath (journalText records)
  | .appendLog record => [.openAppend logPath, .write logPath (journalText [record])]

/-- The operations of one write after the other. -/
def fileOps (steps : List FileStep) : List FileOp := steps.flatMap (·.ops)

/-! ## 2. Loading -/

/-- What `load_state` puts into a `RaftState`.  `voted_for` is taken as it comes. -/
structure LoadedState where
  currentTerm : Int := 0
  votedFor : PyJson := .null
  commitIndex : Int := 0

variable (py : Interpreter)

def stateFromDict (data : PyJson) : Except PyError LoadedState := do
  let currentTerm ← data.getItem "current_term" >>= toInt py
  let votedFor ← data.getD "voted_for" .null
  let commitIndex ← data.getD "commit_index" (.int 0) >>= toInt py
  return { currentTerm, votedFor, commitIndex }

/-- Behind the decoding, nothing is caught. -/
def uncaught {α : Type} : Except PyError α → Except LoadError α
  | .ok a => .ok a
  | .error e => .error (.uncaught e)

/-- `load_state`. -/
def loadStateFile (files : Files) : Except LoadError LoadedState :=
  match files statePath with
  | none => .ok {}
  | some text =>
    match py.loads text with
    | .ok data => uncaught (stateFromDict py data)
    | .error e =>
      if e = .jsonDecodeError then .error (.raftPersistenceError "Unable to load Raft state")
      else .error (.uncaught e)

/-- `RaftSnapshot(version=version, ...)`. -/
def snapshotOfFields (version index term : Int) (state : Dict) : Except PyError RaftSnapshot :=
  if version ≠ 1 then .error .valueError
  else logMethod (RaftSnapshot.new index term state)

def snapshotFromDict (data : PyJson) : Except PyError RaftSnapshot := do
  let members ← data.getItem "state" >>= stateMembers
  let state ← (items members).mapM (stateItem py)
  let version ← data.getD "version" (.int 1) >>= toInt py
  let index ← data.getD "last_included_index" (.int 0) >>= toInt py
  let term ← data.getD "last_included_term" (.int 0) >>= toInt py
  snapshotOfFields version index term
    (state.foldl (fun d (key, value) => d.insert key value) ∅)

/-- `load_snapshot`. -/
def loadSnapshotFile (files : Files) : Except LoadError RaftSnapshot :=
  match files snapshotPath with
  | none => .ok {}
  | some text =>
    match py.loads text >>= snapshotFromDict py with
    | .ok snapshot => .ok snapshot
    | .error e =>
      if e.Caught then .error (.raftPersistenceError "Unable to load Raft snapshot")
      else .error (.uncaught e)

/-- `load_log`. -/
def loadLogFile (files : Files) : Except LoadError (RaftLog × Option (List LogRecord)) :=
  match files logPath with
  | none => .ok ({}, none)
  | some text => loadLog py text

/-! ## 3. What is saved is loaded -/

/-- A saved state as it is loaded. -/
def PersistedState.loaded (state : PersistedState) : LoadedState where
  currentTerm := state.currentTerm
  votedFor := state.votedFor.elim .null .str
  commitIndex := state.commitIndex

theorem stateFromDict_toJson (state : PersistedState) :
    stateFromDict py (ofJson state.toJson) = .ok state.loaded := by
  rcases state with ⟨currentTerm, _ | votedFor, commitIndex⟩
  · rfl
  · rfl

/-- The constructor accepts what it has accepted. -/
theorem snapshotOfFields_self (s : RaftSnapshot) :
    snapshotOfFields s.version s.lastIncludedIndex s.lastIncludedTerm s.state = .ok s := by
  have hindex : ¬ s.lastIncludedIndex < 0 := by
    have := s.index_nonneg
    omega
  have hterm : ¬ s.lastIncludedTerm < 0 := by
    have := s.term_nonneg
    omega
  have hzero : ¬ (s.lastIncludedIndex = 0 ∧ s.lastIncludedTerm ≠ 0) :=
    fun h => h.2 (s.term_zero h.1)
  have hnew : RaftSnapshot.new s.lastIncludedIndex s.lastIncludedTerm s.state = .ok s := by
    unfold RaftSnapshot.new
    rw [dif_neg hindex, dif_neg hterm, dif_neg hzero]
    exact congrArg Except.ok (RaftSnapshot.ext rfl rfl rfl s.version_one.symm)
  unfold snapshotOfFields
  rw [if_neg (not_not_intro s.version_one), hnew]
  rfl

theorem snapshotFromDict_toJson (snapshot : RaftSnapshot) {entries : List (String × String)}
    (h : entries.Perm snapshot.state.toList) :
    snapshotFromDict py (ofJson (snapshot.toJson entries)) = .ok snapshot := by
  have hread : snapshotFromDict py (ofJson (snapshot.toJson entries)) =
      (items (ofMembers (entries.map fun (key, value) => (key, .str value)))).mapM
        (stateItem py) >>= fun state =>
          snapshotOfFields snapshot.version snapshot.lastIncludedIndex snapshot.lastIncludedTerm
            (state.foldl (fun d (key, value) => d.insert key value) ∅) := by
    rfl
  rw [hread, items_itemsToJson h, mapM_stateItem]
  change snapshotOfFields _ _ _ (entries.foldl _ ∅) = _
  rw [foldl_insert_of_perm h]
  exact snapshotOfFields_self snapshot

end PyRaftKv
