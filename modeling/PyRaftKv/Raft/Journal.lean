/-
# `raft/persistence.py`: the text of the log journal

`Persistence.lean` keeps the records that `raft-log.json` decodes to.  This is the file itself:
each record is one line of JSON, written by `_append_log_records` and `_rewrite_log_records`, and
`load_log` reads the lines back.

`loadJournal_text` says that both levels load the same log; `loadJournal_torn` and
`loadJournal_glued` what a record that was cut short does to it.
-/
import PyRaftKv.Formats.Records
import PyRaftKv.Raft.Persistence

namespace PyRaftKv

open Formats

/-! ## 1. Entries as JSON -/

/-- `command_to_dict`. -/
def RaftCommand.toJson (c : RaftCommand) : Json :=
  .obj [("operation", .str c.operation.text), ("key", .str c.key),
    ("value", c.value.elim .null .str)]

/-- `log_entry_to_dict`. -/
def LogEntry.toJson (e : LogEntry) : Json :=
  .obj [("index", .int e.index), ("term", .int e.term), ("command", e.command.toJson)]

def LogRecord.toJson : LogRecord → Json
  | .snapshot baseIndex baseTerm entries => .obj [("type", .str "snapshot"), ("version", .int 1),
      ("base_index", .int baseIndex), ("base_term", .int baseTerm),
      ("entries", .arr (entries.map (·.toJson)))]
  | .append entry => .obj [("type", .str "append"), ("entry", entry.toJson)]
  | .truncate fromIndex => .obj [("type", .str "truncate"), ("from_index", .int fromIndex)]

/-- `int(x)`.  A number that is given as a text is not modelled, and refused. -/
def asInt : Json → Option Int
  | .int n => some n
  | .bool b => some b.toNat
  | _ => none

/-- `str(x)`.  What is not a text is not modelled, and refused. -/
def asText : Json → Option String
  | .str s => some s
  | _ => none

/-- `command_from_dict`. -/
def commandFromJson (data : Json) : Option RaftCommand := do
  let operation ← (data.get? "operation").bind asText
  let key ← (data.get? "key").bind asText
  match data.get? "value" with
  | none => some ⟨.ofText operation, key, none⟩
  | some .null => some ⟨.ofText operation, key, none⟩
  | some value => (asText value).map fun value => ⟨.ofText operation, key, some value⟩

/-- `log_entry_from_dict`. -/
def logEntryFromJson (data : Json) : Option LogEntry := do
  let index ← (data.get? "index").bind asInt
  let term ← (data.get? "term").bind asInt
  let command ← (data.get? "command").bind commandFromJson
  return ⟨index, term, command⟩

/-! ## 2. Writing the journal -/

/-- `json.dumps(record, separators=(",", ":"))`. -/
def LogRecord.text (r : LogRecord) : List Char := r.toJson.dump Json.compact

/-- What `_append_log_records` and `_rewrite_log_records` write. -/
def journalText (records : List LogRecord) : List Char := unlines (records.map (·.text))

/-! ## 3. Reading it back -/

/-- The error that hides every other one. -/
def unableToLoad : RaftError := .raftPersistenceError "Unable to load Raft log"

def orUnable {α : Type} : Option α → Except RaftError α
  | some a => .ok a
  | none => .error unableToLoad

/-- An error of the log's own methods is hidden, too. -/
def hideError {α : Type} : Except RaftError α → Except RaftError α
  | .ok a => .ok a
  | .error _ => .error unableToLoad

theorem orUnable_eq_ok {α : Type} {x : Option α} {a : α} : orUnable x = .ok a ↔ x = some a := by
  cases x <;> simp [orUnable]

theorem hideError_eq_ok {α : Type} {x : Except RaftError α} {a : α} :
    hideError x = .ok a ↔ x = .ok a := by
  cases x <;> simp [hideError]

/-- `log.append_entry(log_entry_from_dict(raw_entry))`. -/
def appendRaw (log : RaftLog) (rawEntry : Json) : Except RaftError RaftLog := do
  let entry ← orUnable (logEntryFromJson rawEntry)
  hideError (log.appendEntry entry)

/-- `int(record.get(key, 0))`. -/
def intOrZero (record : Json) (key : String) : Option Int :=
  match record.get? key with
  | none => some 0
  | some value => asInt value

/-- The body of the loop of `load_log`, on the record of a line. -/
def readRecord (lineNumber : Nat) (log : RaftLog) (record : Json) : Except RaftError RaftLog :=
  match record with
  | .obj members =>
    match (Json.obj members).get? "type" with
    | some (.str "snapshot") =>
      match (Json.obj members).get? "entries" with
      | some (.arr rawEntries) => do
        let baseIndex ← orUnable (intOrZero (.obj members) "base_index")
        let baseTerm ← orUnable (intOrZero (.obj members) "base_term")
        let log ← hideError (RaftLog.new baseIndex baseTerm [])
        rawEntries.foldlM appendRaw log
      | _ => .error (.raftPersistenceError s!"Invalid Raft log snapshot at line {lineNumber}")
    | some (.str "append") =>
      match (Json.obj members).get? "entry" with
      | some (.obj rawEntry) => appendRaw log (.obj rawEntry)
      | _ => .error (.raftPersistenceError s!"Invalid Raft append record at line {lineNumber}")
    | some (.str "truncate") => do
      let index ← orUnable (((Json.obj members).get? "from_index").bind asInt)
      hideError (log.truncateFrom index)
    | _ => .error (.raftPersistenceError s!"Unknown Raft log record type at line {lineNumber}")
  | _ => .error (.raftPersistenceError s!"Invalid Raft log record at line {lineNumber}")

/-- The loop of `load_log` over the lines from number `lineNumber` on. -/
def readLines (lineNumber : Nat) : List (List Char) → RaftLog → Except RaftError RaftLog
  | [], log => .ok log
  | line :: lines, log =>
    if blankLine line then readLines (lineNumber + 1) lines log
    else do
      let record ← orUnable (Json.load line)
      let log ← readRecord lineNumber log record
      readLines (lineNumber + 1) lines log

/-- `load_log`: the log, and the records of the rewritten file if it was in the old format, one
array of entries. -/
def loadJournal (content : List Char) : Except RaftError (RaftLog × Option (List LogRecord)) :=
  if blankLine content then .ok ({}, none)
  else
    match Json.load content with
    | some (.arr legacyData) => do
      let log ← legacyData.foldlM appendRaw {}
      return (log, some [.snapshot log.baseIndex log.baseTerm log.entries])
    | _ => (readLines 1 (splitLines content) {}).map (·, none)

/-! ## 4. One record -/

theorem commandFromJson_toJson (c : RaftCommand) : commandFromJson c.toJson = some c := by
  obtain ⟨operation, key, value⟩ := c
  cases value with
  | none => exact congrArg (fun o => some (RaftCommand.mk o key none)) operation.ofText_text
  | some value =>
    exact congrArg (fun o => some (RaftCommand.mk o key (some value))) operation.ofText_text

theorem logEntryFromJson_toJson (e : LogEntry) : logEntryFromJson e.toJson = some e := by
  have hcommand : (e.toJson.get? "command").bind commandFromJson = some e.command :=
    commandFromJson_toJson e.command
  unfold logEntryFromJson
  rw [hcommand]
  rfl

theorem appendRaw_toJson (log : RaftLog) (e : LogEntry) :
    appendRaw log e.toJson = hideError (log.appendEntry e) := by
  unfold appendRaw
  rw [logEntryFromJson_toJson]
  rfl

theorem hideError_bind {α β : Type} (x : Except RaftError α) (f : α → Except RaftError β) :
    (hideError x >>= fun a => hideError (f a)) = hideError (x >>= f) := by
  cases x <;> rfl

theorem foldlM_appendRaw (entries : List LogEntry) : ∀ (log : RaftLog),
    (entries.map (·.toJson)).foldlM appendRaw log =
      hideError (entries.foldlM RaftLog.appendEntry log) := by
  induction entries with
  | nil =>
    intro log
    rfl
  | cons e entries ih =>
    intro log
    rw [List.map_cons, List.foldlM_cons, List.foldlM_cons, appendRaw_toJson, ← hideError_bind]
    congr 1
    funext log'
    exact ih log'

/-- A record that is read does what it does on the level of records. -/
theorem readRecord_toJson (n : Nat) (log : RaftLog) (r : LogRecord) :
    readRecord n log r.toJson = hideError (r.replay log) := by
  cases r with
  | snapshot baseIndex baseTerm entries =>
    have hread : readRecord n log (LogRecord.snapshot baseIndex baseTerm entries).toJson =
        (hideError (RaftLog.new baseIndex baseTerm []) >>= fun log =>
          (entries.map (·.toJson)).foldlM appendRaw log) := rfl
    rw [hread, LogRecord.replay, ← hideError_bind]
    congr 1
    funext log'
    exact foldlM_appendRaw entries log'
  | append entry => exact appendRaw_toJson log entry
  | truncate fromIndex => rfl

/-! ## 5. The file -/

namespace LogRecord

theorem text_oneLine (r : LogRecord) : OneLine r.text := Json.dump_oneLine _ _

theorem toJson_members (r : LogRecord) : ∃ members, r.toJson = .obj members := by
  cases r <;> exact ⟨_, rfl⟩

theorem whole_piece (r : LogRecord) : Piece r.text r.text := by
  obtain ⟨members, h⟩ := r.toJson_members
  rw [text, h]
  exact Json.whole_piece _ members

theorem blankLine_torn {r : LogRecord} {piece : List Char} (h : Piece r.text piece) :
    blankLine piece = false := by
  obtain ⟨members, hr⟩ := r.toJson_members
  rw [text, hr] at h
  exact Json.blankLine_torn h

theorem load_torn {r : LogRecord} {piece : List Char} (h : Piece r.text piece) :
    Json.load piece = if piece = r.text then some r.toJson else none := by
  obtain ⟨members, hr⟩ := r.toJson_members
  rw [text, hr] at h ⊢
  exact Json.load_torn h

end LogRecord

/-- The records, replayed from an empty log. -/
def replayRecords (records : List LogRecord) : Except RaftError RaftLog :=
  records.foldlM LogRecord.replay {}

theorem splitLines_journalText (records : List LogRecord) (s : List Char) :
    splitLines (journalText records ++ s) = records.map (·.text) ++ splitLines s := by
  refine splitLines_unlines _ ?_ s
  intro l hl
  obtain ⟨r, -, rfl⟩ := List.mem_map.mp hl
  exact r.text_oneLine

/-- The lines of whole records are read one after the other. -/
theorem readLines_records (records : List LogRecord) (lines : List (List Char)) :
    ∀ (n : Nat) (log : RaftLog), readLines n (records.map (·.text) ++ lines) log =
      hideError (records.foldlM LogRecord.replay log) >>= fun log =>
        readLines (n + records.length) lines log := by
  induction records with
  | nil =>
    intro n log
    rfl
  | cons r records ih =>
    intro n log
    have hload : Json.load r.text = some r.toJson := Json.load_dump _ _
    rw [List.map_cons, List.cons_append, readLines,
      if_neg (by rw [LogRecord.blankLine_torn r.whole_piece]; exact Bool.false_ne_true), hload,
      List.foldlM_cons, List.length_cons]
    change (readRecord n log r.toJson >>= fun log =>
      readLines (n + 1) (records.map (·.text) ++ lines) log) = _
    rw [readRecord_toJson]
    cases r.replay log with
    | error e => rfl
    | ok log' =>
      have hnext := ih (n + 1) log'
      rw [Nat.add_right_comm n 1 records.length, Nat.add_assoc n records.length 1] at hnext
      exact hnext

/-- A file that begins with a record is not in the old format. -/
theorem loadJournal_eq {content : List Char} (h : content = [] ∨ ∃ s, content = '{' :: s) :
    loadJournal content = (readLines 1 (splitLines content) {}).map (·, none) := by
  rcases h with rfl | ⟨s, rfl⟩
  · rfl
  · have hblank : blankLine ('{' :: s) = false := by simp [blankLine, isSpace]
    unfold loadJournal
    rw [hblank]
    simp only [Bool.false_eq_true, if_false]
    split
    · rename_i legacyData hload
      obtain ⟨members, h⟩ := Json.load_brace hload
      cases h
    · rfl

theorem LogRecord.text_head (r : LogRecord) : ∃ s, r.text = '{' :: s := by
  obtain ⟨members, h⟩ := r.toJson_members
  exact ⟨_, by rw [LogRecord.text, h, Json.dump]⟩

theorem journalText_cons (r : LogRecord) (records : List LogRecord) :
    journalText (r :: records) = r.text ++ '\n' :: journalText records := by
  rw [journalText, List.map_cons, unlines_cons]
  rfl

theorem journalText_head {records : List LogRecord} {s : List Char}
    (hs : s = [] ∨ ∃ u, s = '{' :: u) :
    journalText records ++ s = [] ∨ ∃ u, journalText records ++ s = '{' :: u := by
  cases records with
  | nil => exact hs
  | cons r records =>
    obtain ⟨u, hu⟩ := r.text_head
    right
    exact ⟨_, by rw [journalText_cons, hu, List.cons_append, List.cons_append]⟩

/-- What follows the records is read on top of them. -/
theorem loadJournal_append {records : List LogRecord} {s : List Char}
    (hs : s = [] ∨ ∃ u, s = '{' :: u) :
    loadJournal (journalText records ++ s) = (hideError (replayRecords records) >>= fun log =>
      readLines (1 + records.length) (splitLines s) log).map (·, none) := by
  rw [loadJournal_eq (journalText_head hs), splitLines_journalText, readLines_records]
  rfl

/-- **Both levels load the same log.** -/
theorem loadJournal_text (records : List LogRecord) :
    loadJournal (journalText records) = (hideError (replayRecords records)).map (·, none) := by
  have h : loadJournal (journalText records ++ []) = _ := loadJournal_append (Or.inl rfl)
  rw [List.append_nil] at h
  rw [h]
  cases replayRecords records <;> rfl

/-- A last line that cannot be read. -/
theorem loadJournal_unreadable {records : List LogRecord} {line : List Char} {log : RaftLog}
    (hrecords : replayRecords records = .ok log) (hhead : ∃ u, line = '{' :: u)
    {lines : List (List Char)} {s : List Char} (hs : splitLines s = line :: lines)
    (hbrace : ∃ u, s = '{' :: u) (hload : Json.load line = none) :
    loadJournal (journalText records ++ s) = .error unableToLoad := by
  obtain ⟨u, rfl⟩ := hhead
  have hblank : ¬ blankLine ('{' :: u) = true := by simp [blankLine, isSpace]
  rw [loadJournal_append (Or.inr hbrace), hrecords, hs]
  change (readLines _ _ log).map _ = _
  rw [readLines, if_neg hblank, hload]
  rfl

theorem piece_head {r : LogRecord} {piece : List Char} (h : Piece r.text piece) :
    ∃ u, piece = '{' :: u := by
  obtain ⟨s, hs⟩ := r.text_head
  obtain ⟨hne, u, hu⟩ := h
  obtain ⟨c, s', rfl⟩ := List.exists_cons_of_ne_nil hne
  rw [hs, List.cons_append] at hu
  exact ⟨s', by rw [(List.cons.inj hu).1]⟩

/-- **A record that was cut short makes the file unreadable.** -/
theorem loadJournal_torn {records : List LogRecord} {r : LogRecord} {piece : List Char}
    {log : RaftLog} (hrecords : replayRecords records = .ok log) (h : Piece r.text piece)
    (hne : piece ≠ r.text) :
    loadJournal (journalText records ++ piece) = .error unableToLoad := by
  have hline : splitLines piece = [piece] := by
    rw [splitLines_piece (r.text_oneLine.of_isPrefix h.2), if_neg h.1]
  have hload : Json.load piece = none := by
    rw [LogRecord.load_torn h, if_neg hne]
  exact loadJournal_unreadable hrecords (piece_head h) hline (piece_head h) hload

/-- So is a record behind one whose newline is missing. -/
theorem loadJournal_glued {records : List LogRecord} {log : RaftLog}
    (hrecords : replayRecords records = .ok log) (r x : LogRecord) (more : List LogRecord) :
    loadJournal (journalText records ++ (r.text ++ journalText (x :: more))) =
      .error unableToLoad := by
  obtain ⟨u, hu⟩ := r.text_head
  have hone : OneLine (r.text ++ x.text) := by
    intro c hc
    exact (List.mem_append.mp hc).elim (r.text_oneLine c) (x.text_oneLine c)
  have hlines : splitLines (r.text ++ journalText (x :: more)) =
      (r.text ++ x.text) :: splitLines (journalText more) := by
    rw [journalText_cons, ← List.append_assoc, splitLines_cons hone]
  have hload : Json.load (r.text ++ x.text) = none := by
    obtain ⟨ms, hr⟩ := r.toJson_members
    obtain ⟨ns, hx⟩ := x.toJson_members
    rw [LogRecord.text, hr, LogRecord.text, hx]
    have h := Json.load_glued Json.compact Json.compact ms ns []
    rwa [List.append_nil] at h
  refine loadJournal_unreadable hrecords ⟨_, by rw [hu, List.cons_append]⟩ hlines
    ⟨_, by rw [hu, List.cons_append]⟩ hload

end PyRaftKv
