/-
# `load_log` on any file

`Journal.lean` reads back what a node has written.  Here the file is any text, a line may hold any
JSON value, and an exception that `load_log` does not catch leaves it.

The loop runs under one `try` that turns `KeyError`, `TypeError` and `ValueError` into
`RaftPersistenceError`.  The attempt to read the whole file as one array stands before it and
catches `JSONDecodeError` only.
-/
import PyRaftKv.Raft.Journal
import PyRaftKv.Transport.Serialization

namespace PyRaftKv

open Formats PyJson

/-- What `load_log` raises. -/
inductive LoadError
  | raftPersistenceError (message : String)
  | uncaught (e : PyError)

/-- The caller expects it. -/
def LoadError.Expected : LoadError → Prop
  | .raftPersistenceError _ => True
  | .uncaught _ => False

variable (py : Interpreter)

/-! ## 1. Reading -/

/-- The `except` clauses around the loops. -/
def guarded {α : Type} : Except PyError α → Except LoadError α
  | .ok a => .ok a
  | .error e =>
    if e.Caught then .error (.raftPersistenceError "Unable to load Raft log")
    else .error (.uncaught e)

/-- The methods of the log raise `ValueError`. -/
def logMethod {α : Type} : Except RaftError α → Except PyError α
  | .ok a => .ok a
  | .error _ => .error .valueError

/-- `log.append_entry(log_entry_from_dict(raw_entry))`. -/
def appendRawEntry (log : RaftLog) (rawEntry : PyJson) : Except PyError RaftLog := do
  let entry ← logEntryFromDict py rawEntry
  logMethod (log.appendEntry entry)

/-- `int(record.get(key, 0))`. -/
def intOr0 (members : List (String × PyJson)) (key : String) : Except PyError Int :=
  toInt py ((lookup members key).getD (.int 0))

/-- `RaftLog(base_index, base_term)` and its entries. -/
def readSnapshot (members : List (String × PyJson)) (rawEntries : List PyJson) :
    Except PyError RaftLog := do
  let baseIndex ← intOr0 py members "base_index"
  let baseTerm ← intOr0 py members "base_term"
  let log ← logMethod (RaftLog.new baseIndex baseTerm [])
  rawEntries.foldlM (appendRawEntry py) log

/-- `log.truncate_from(int(record["from_index"]))`. -/
def readTruncate (log : RaftLog) (record : PyJson) : Except PyError RaftLog := do
  let index ← record.getItem "from_index" >>= toInt py
  logMethod (log.truncateFrom index)

/-- The body of the loop, on the record of a line. -/
def loadRecord (lineNumber : Nat) (log : RaftLog) : PyJson → Except LoadError RaftLog
  | .obj members =>
    match lookup members "type" with
    | some (.str "snapshot") =>
      match lookup members "entries" with
      | some (.arr rawEntries) => guarded (readSnapshot py members rawEntries)
      | _ => .error (.raftPersistenceError s!"Invalid Raft log snapshot at line {lineNumber}")
    | some (.str "append") =>
      match lookup members "entry" with
      | some (.obj rawEntry) => guarded (appendRawEntry py log (.obj rawEntry))
      | _ => .error (.raftPersistenceError s!"Invalid Raft append record at line {lineNumber}")
    | some (.str "truncate") => guarded (readTruncate py log (.obj members))
    | _ => .error (.raftPersistenceError s!"Unknown Raft log record type at line {lineNumber}")
  | _ => .error (.raftPersistenceError s!"Invalid Raft log record at line {lineNumber}")

/-- The loop over the lines from number `lineNumber` on. -/
def loadLines (lineNumber : Nat) : List (List Char) → RaftLog → Except LoadError RaftLog
  | [], log => .ok log
  | line :: lines, log =>
    if blankLine line then loadLines (lineNumber + 1) lines log
    else do
      let record ← guarded (py.loads line)
      let log ← loadRecord py lineNumber log record
      loadLines (lineNumber + 1) lines log

/-- `load_log`: the log, and the records of the rewritten file if it was in the old format. -/
def loadLog (content : List Char) : Except LoadError (RaftLog × Option (List LogRecord)) :=
  if blankLine content then .ok ({}, none)
  else
    match py.loads content with
    | .error e =>
      if e = .jsonDecodeError then (loadLines py 1 (splitLines content) {}).map (·, none)
      else .error (.uncaught e)
    | .ok (.arr legacyData) => (guarded (legacyData.foldlM (appendRawEntry py) {})).map fun log =>
        (log, some [.snapshot log.baseIndex log.baseTerm log.entries])
    | .ok _ => (loadLines py 1 (splitLines content) {}).map (·, none)

/-! ## 2. What a file holds -/

/-- The record that a value stands for. -/
def recordOf : PyJson → Except PyError LogRecord
  | .obj members =>
    match lookup members "type" with
    | some (.str "snapshot") =>
      match lookup members "entries" with
      | some (.arr rawEntries) => do
        let baseIndex ← intOr0 py members "base_index"
        let baseTerm ← intOr0 py members "base_term"
        let entries ← rawEntries.mapM (logEntryFromDict py)
        return .snapshot baseIndex baseTerm entries
      | _ => .error .typeError
    | some (.str "append") =>
      match lookup members "entry" with
      | some (.obj rawEntry) => do
        let entry ← logEntryFromDict py (.obj rawEntry)
        return .append entry
      | _ => .error .typeError
    | some (.str "truncate") => do
      let index ← (PyJson.obj members).getItem "from_index" >>= toInt py
      return .truncate index
    | _ => .error .typeError
  | _ => .error .typeError

/-- The records of a file's lines. -/
def recordsOf (lines : List (List Char)) : Except PyError (List LogRecord) :=
  (lines.filter (!blankLine ·)).mapM fun line => py.loads line >>= recordOf py

/-- The lines are a journal, which fits the log. -/
def Loadable (lines : List (List Char)) (log : RaftLog) : Prop :=
  ∃ records log', recordsOf py lines = .ok records ∧
    records.foldlM LogRecord.replay log = .ok log'

/-! ## 3. What is read -/

/-- The entries of an array, the first one with index `index`. -/
def arrayRulings (index : Int) : List PyJson → List Ruling
  | [] => []
  | rawEntry :: rest =>
    logEntryRulings py rawEntry ++
      [if rawEntry.getItem "index" >>= toInt py = .ok index then .fine else .refused] ++
        arrayRulings (index + 1) rest

/-- The ruling on `int(record.get(key, 0))`. -/
def intOr0Ruling (members : List (String × PyJson)) (key : String) : Ruling :=
  intRuling py ((lookup members key).getD (.int 0))

/-- A snapshot record.  What follows a base that the constructor refuses is not read. -/
def snapshotRulings (members : List (String × PyJson)) (rawEntries : List PyJson) :
    List Ruling :=
  [intOr0Ruling py members "base_index", intOr0Ruling py members "base_term"] ++
    match intOr0 py members "base_index", intOr0 py members "base_term" with
    | .ok baseIndex, .ok baseTerm =>
      if baseIndex < 0 ∨ baseTerm < 0 ∨ baseIndex = 0 ∧ baseTerm ≠ 0 then [.refused]
      else arrayRulings py (baseIndex + 1) rawEntries
    | _, _ => []

/-- What a record asks for by itself, whatever the log it is read on top of. -/
def recordRulings : PyJson → List Ruling
  | .obj members =>
    match lookup members "type" with
    | some (.str "snapshot") =>
      match lookup members "entries" with
      | some (.arr rawEntries) => snapshotRulings py members rawEntries
      | _ => [.refused]
    | some (.str "append") =>
      match lookup members "entry" with
      | some (.obj rawEntry) => logEntryRulings py (.obj rawEntry)
      | _ => [.refused]
    | some (.str "truncate") => intField py "from_index" (.obj members)
    | _ => [.refused]
  | _ => [.refused]

/-- What a line asks for by itself. -/
def lineRulings (line : List Char) : List Ruling :=
  if blankLine line then []
  else
    match py.loads line with
    | .ok record => recordRulings py record
    | .error e => [callRuling (.error e : Except PyError PyJson)]

/-- No line that stands behind a journal that loads stops at a fatal part. -/
def HarmlessLines (lines : List (List Char)) : Prop :=
  ∀ k line, lines[k]? = some line → Loadable py (lines.take k) {} → NotFatal (lineRulings py line)

/-- **The files that `load_log` loads or refuses.** -/
def HarmlessFile (content : List Char) : Prop :=
  blankLine content ∨
    match py.loads content with
    | .error e => e = .jsonDecodeError ∧ HarmlessLines py (splitLines content)
    | .ok (.arr legacyData) => NotFatal (arrayRulings py 1 legacyData)
    | .ok _ => HarmlessLines py (splitLines content)

end PyRaftKv
