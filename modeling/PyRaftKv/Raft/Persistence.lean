/-
# `raft/persistence.py`: the three files of a data directory

`raft-state.json` and `raft-snapshot.json` are replaced as a whole.  `raft-log.json` is a journal:
it is replaced by one record that holds a whole log, or records are appended to it.  The model
keeps what the files decode to.  A `Write` is one durable effect: one replaced file, or one
record appended.
-/
import PyRaftKv.Raft.State

namespace PyRaftKv

/-- `raft-state.json`. -/
@[ext] structure PersistedState where
  currentTerm : Int := 0
  votedFor : Option NodeId := none
  commitIndex : Int := 0
deriving DecidableEq

def RaftState.persisted (s : RaftState) : PersistedState :=
  ⟨s.currentTerm, s.votedFor, s.commitIndex⟩

/-- A line of `raft-log.json`. -/
inductive LogRecord
  | snapshot (baseIndex baseTerm : Int) (entries : List LogEntry)
  | append (entry : LogEntry)
  | truncate (fromIndex : Int)
deriving DecidableEq

/-- A data directory: each file if it exists. -/
structure DataDir where
  stateFile : Option PersistedState := none
  logFile : Option (List LogRecord) := none
  snapshotFile : Option RaftSnapshot := none

inductive Write
  | saveState (state : PersistedState)
  | saveSnapshot (snapshot : RaftSnapshot)
  | rewriteLog (records : List LogRecord)
  | appendLog (record : LogRecord)

def DataDir.write (d : DataDir) : Write → DataDir
  | .saveState state => { d with stateFile := some state }
  | .saveSnapshot snapshot => { d with snapshotFile := some snapshot }
  | .rewriteLog records => { d with logFile := some records }
  | .appendLog record => { d with logFile := some (d.logFile.getD [] ++ [record]) }

def DataDir.writes (d : DataDir) (ws : List Write) : DataDir := ws.foldl DataDir.write d

/-! ## 1. Saving -/

def saveState (state : RaftState) : List Write := [.saveState state.persisted]

def saveSnapshot (snapshot : RaftSnapshot) : List Write := [.saveSnapshot snapshot]

def saveLog (log : RaftLog) : List Write :=
  [.rewriteLog [.snapshot log.baseIndex log.baseTerm log.entries]]

/-- `append_log_entries`. -/
def appendLogEntries (entries : List LogEntry) : List Write :=
  entries.map fun e => .appendLog (.append e)

def replaceLogSuffix (fromIndex : Int) (entries : List LogEntry) :
    Except RaftError (List Write) :=
  if fromIndex ≤ 0 then .error (.valueError "from_index must be greater than zero")
  else .ok (.appendLog (.truncate fromIndex) :: appendLogEntries entries)

/-! ## 2. Loading -/

def DataDir.loadState (d : DataDir) (nodeId : NodeId) : RaftState :=
  match d.stateFile with
  | none => { nodeId }
  | some s => {
      nodeId
      currentTerm := s.currentTerm
      votedFor := s.votedFor
      commitIndex := s.commitIndex }

def DataDir.loadSnapshot (d : DataDir) : RaftSnapshot := d.snapshotFile.getD {}

/-- What one record does to the log read so far. -/
def LogRecord.replay (log : RaftLog) : LogRecord → Except RaftError RaftLog
  | .snapshot baseIndex baseTerm entries => do
    let log ← RaftLog.new baseIndex baseTerm []
    entries.foldlM RaftLog.appendEntry log
  | .append entry => log.appendEntry entry
  | .truncate fromIndex => log.truncateFrom fromIndex

/-- `load_log` on the records of a journal. -/
def DataDir.loadLog (d : DataDir) : Except RaftError RaftLog :=
  match (d.logFile.getD []).foldlM LogRecord.replay {} with
  | .ok log => .ok log
  | .error _ => .error (.raftPersistenceError "Unable to load Raft log")

end PyRaftKv
