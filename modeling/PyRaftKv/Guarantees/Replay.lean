/-
# The journal gives back the log

A node writes its journal in three ways: it appends entries, it brings the file from the log before
a request to the log after it, and it rewrites the file with a whole log.  A file in the old
format, one array of entries, is rewritten when it is loaded.  `journal_replays`: whatever a node
wrote in whatever order, `load_log` gives back the log that it had in memory.

The one log that does not come back is one with a negative base term, which the constructor of
`RaftLog` refuses.  A node saves none: each log it saves lies behind a snapshot, and a snapshot
refuses such a term, too.
-/
import PyRaftKv.Guarantees.Journal
import PyRaftKv.Refinement.Following

namespace PyRaftKv

open Formats

/-! ## 1. The text under the writes -/

/-- What a write does to the text of the journal. -/
def Write.onText (content : List Char) : Write → List Char
  | .appendLog record => content ++ journalText [record]
  | .rewriteLog records => journalText records
  | _ => content

def writeText (content : List Char) (ws : List Write) : List Char := ws.foldl Write.onText content

/-- The text holds the records of a data directory. -/
def Spells (content : List Char) (d : DataDir) : Prop :=
  content = journalText (d.logFile.getD [])

theorem Spells.writes {ws : List Write} : ∀ {content : List Char} {d : DataDir},
    Spells content d → Spells (writeText content ws) (d.writes ws) := by
  induction ws with
  | nil => exact fun h => h
  | cons w ws ih =>
    intro content d h
    refine ih ?_
    cases w with
    | appendLog record =>
      change content ++ _ = journalText (d.logFile.getD [] ++ [record])
      rw [journalText_append, h]
    | rewriteLog records => rfl
    | saveState state => exact h
    | saveSnapshot snapshot => exact h

/-- The text loads as the records do. -/
theorem Spells.loads {content : List Char} {d : DataDir} {log : RaftLog} (h : Spells content d)
    (hd : d.loadLog = .ok log) : loadJournal content = .ok (log, none) := by
  rw [h]
  exact loadJournal_ok (DataDir.loadLog_eq_ok.mp hd)

/-! ## 2. What a node saves -/

/-- A rewritten journal holds one log, which the constructor of `RaftLog` accepts. -/
def Write.SavesLog : Write → Prop
  | .rewriteLog records => ∃ log : RaftLog, 0 ≤ log.baseTerm ∧ saveLog log = [.rewriteLog records]
  | _ => True

theorem savesLog_saveLog {log : RaftLog} (h : 0 ≤ log.baseTerm) :
    ∀ w ∈ saveLog log, w.SavesLog := by
  intro w hw
  rw [List.mem_singleton.mp hw]
  exact ⟨log, h, rfl⟩

/-- All that a stretch writes to the journal it appends, or it saves a log. -/
def Saving {α : Type} (m : NodeM α) : Prop := ∀ n, ∀ w ∈ (m n).writes, w.SavesLog

namespace Saving

variable {α β : Type}

theorem bind {m : NodeM α} {f : α → NodeM β} (hm : Saving m)
    (hf : ∀ n a, (m n).result = .ok a → Saving (f a)) : Saving (m >>= f) := by
  intro n
  have h := hm n
  have hf := hf n
  rw [NodeM.bind_run]
  rcases hrun : m n with ⟨_ | a, n', ws⟩
  · rw [hrun] at h
    exact h
  · rw [hrun] at h hf
    intro w hw
    change w ∈ (ws ++ (f a n').effects).map (·.write) at hw
    rw [List.map_append] at hw
    exact (List.mem_append.mp hw).elim (h w) (hf a rfl n' w)

/-- What goes on after a call that answers. -/
theorem bind_lift {x : Except RaftError α} {f : α → NodeM β} (hf : ∀ a, x = .ok a → Saving (f a)) :
    Saving (NodeM.lift x >>= f) := by
  refine bind (fun n w hw => ?_) fun n a ha => hf a ?_
  · cases x <;> cases hw
  · cases x with
    | error e => cases ha
    | ok b =>
      cases ha
      rfl

theorem pure (a : α) : Saving (Pure.pure a : NodeM α) := fun _ _ hw => nomatch hw

theorem get : Saving NodeM.get := fun _ _ hw => nomatch hw

theorem modify (f : RaftNode → RaftNode) : Saving (NodeM.modify f) := fun _ _ hw => nomatch hw

theorem raise (e : RaftError) : Saving (NodeM.raise e : NodeM α) := fun _ _ hw => nomatch hw

theorem persist {ws : List Write} (h : ∀ w ∈ ws, w.SavesLog) : Saving (NodeM.persist ws) := by
  intro n w hw
  rw [Outcome.writes, NodeM.persist_run, NodeM.writes_of_persist] at hw
  exact h w hw

theorem ite {c : Prop} [Decidable c] {m m' : NodeM α} (hm : Saving m) (hm' : Saving m') :
    Saving (if c then m else m') := by
  split
  · exact hm
  · exact hm'

end Saving

/-- A boundary that is moved has the term that the log had there. -/
theorem RaftLog.compactThrough_baseTerm {log log' : RaftLog} {k : Int}
    (h : log.compactThrough k = .ok log') : log.termAt k = some log'.baseTerm := by
  unfold RaftLog.compactThrough at h
  split at h
  · cases h
  · split at h
    · rename_i heq
      cases h
      exact if_pos heq
    · split at h
      · cases h
      · rename_i hterm
        cases h
        exact hterm

/-- A boundary that is installed has the term it was given. -/
theorem RaftLog.install_baseTerm {log log' : RaftLog} {k t : Int}
    (h : log.installSnapshotBoundary k t = .ok log') : log'.baseTerm = t := by
  unfold RaftLog.installSnapshotBoundary at h
  split at h
  · cases h
  · split at h
    · split at h
      · cases h
      · rename_i hsame
        cases h
        exact (not_not.mp hsame).symm
    · split at h <;> cases h <;> rfl

theorem RaftSnapshot.new_term {index term : Int} {state : Dict} {snapshot : RaftSnapshot}
    (h : RaftSnapshot.new index term state = .ok snapshot) : 0 ≤ term := by
  by_contra hneg
  unfold RaftSnapshot.new at h
  split at h
  · cases h
  · rw [dif_pos (not_le.mp hneg)] at h
    cases h

namespace RaftNode

open NodeM

theorem persistState_saving : Saving persistState :=
  .bind .get fun _ _ _ => .persist fun w hw => by
    rw [List.mem_singleton.mp hw]
    trivial

theorem persistTerm_saving (previousTerm : Int) : Saving (persistTerm previousTerm) :=
  .bind .get fun _ _ _ => .ite persistState_saving (.pure ())

theorem applyCommitted_saving : Saving applyCommitted := by
  intro n w hw
  unfold applyCommitted at hw
  cases hw

theorem saveSnapshot_saving (snapshot : RaftSnapshot) : Saving (persist (saveSnapshot snapshot)) :=
  .persist fun w hw => by
    rw [List.mem_singleton.mp hw]
    trivial

/-- **`create_snapshot` saves a log whose base term is the snapshot's.** -/
theorem createSnapshot_saving : Saving createSnapshot := by
  refine .bind .get fun _ n _ => .ite (.pure _) ?_
  split
  · exact .raise _
  · rename_i term hterm
    refine .bind_lift fun snapshot hsnapshot => .bind (saveSnapshot_saving _) fun _ _ _ => ?_
    refine .bind_lift fun copied hcopied => .bind_lift fun log hlog => ?_
    refine .bind (.persist (savesLog_saveLog ?_)) fun _ _ _ => ?_
    · rw [RaftLog.copy_eq hcopied] at hlog
      have hbase := RaftLog.compactThrough_baseTerm hlog
      rw [hterm] at hbase
      exact Option.some.inj hbase ▸ RaftSnapshot.new_term hsnapshot
    · exact .bind persistState_saving fun _ _ _ => .bind (.modify _) fun _ _ _ => .pure _

/-- So does `handle_install_snapshot`. -/
theorem handleInstallSnapshot_saving (clock : Clock) (request : InstallSnapshotRequest) :
    Saving (handleInstallSnapshot clock request) := by
  have hrefuse : ∀ (t : Int) (a : InstallSnapshotResponse),
      Saving (persistTerm t >>= fun _ => pure a) :=
    fun t a => .bind (persistTerm_saving t) fun _ _ _ => .pure a
  refine .bind .get fun _ n _ => .ite (.pure _) ?_
  refine .bind (.bind .get fun _ n _ => .bind_lift fun _ _ => .modify _) fun _ _ _ => ?_
  refine .bind (.modify _) fun _ _ _ => .bind .get fun _ n _ => ?_
  refine .ite (hrefuse _ _) <| .ite (.bind (persistTerm_saving _) fun _ _ _ =>
    .bind (.modify _) fun _ _ _ => .pure _) <| .ite (hrefuse _ _) ?_
  refine .bind_lift fun snapshot hsnapshot => .bind_lift fun copied hcopied => ?_
  split
  · exact hrefuse _ _
  · rename_i log hlog
    refine .ite (hrefuse _ _) ?_
    refine .bind (saveSnapshot_saving _) fun _ _ _ =>
      .bind (.persist (savesLog_saveLog ?_)) fun _ _ _ => ?_
    · exact RaftLog.install_baseTerm hlog ▸ RaftSnapshot.new_term hsnapshot
    · exact .bind (.modify _) fun _ _ _ => .bind applyCommitted_saving fun _ _ _ =>
        .bind persistState_saving fun _ _ _ => .bind (.modify _) fun _ _ _ => .pure _

/-- A start saves a log only where it moves the boundary to the snapshot's. -/
theorem init_saving (nodeId : NodeId) (members : Members) (d : DataDir) (clock : Clock) :
    ∀ w ∈ (init nodeId members d clock).writes, w.SavesLog := by
  have hnil : ∀ w ∈ ([] : List Write), w.SavesLog := fun w hw => nomatch hw
  have hstate : ∀ (ws : List Write) (s : RaftState), (∀ w ∈ ws, w.SavesLog) →
      ∀ w ∈ ws ++ saveState s, w.SavesLog := by
    intro ws s hws w hw
    rcases List.mem_append.mp hw with hw | hw
    · exact hws w hw
    · rw [List.mem_singleton.mp hw]
      trivial
  unfold init
  split
  · exact hnil
  simp only
  split
  · exact hnil
  rename_i log hload
  split
  · exact hnil
  split
  · exact hnil
  split
  · exact hnil
  rename_i log' ws hmoved
  have hws : ∀ w ∈ ws, w.SavesLog := by
    split at hmoved
    · rcases hinstall : log.installSnapshotBoundary d.loadSnapshot.lastIncludedIndex
          d.loadSnapshot.lastIncludedTerm with e | moved
      · rw [hinstall] at hmoved
        cases hmoved
      · rw [hinstall] at hmoved
        cases hmoved
        refine savesLog_saveLog ?_
        rw [RaftLog.install_baseTerm hinstall]
        exact d.loadSnapshot.term_nonneg
    · cases hmoved
      exact hnil
  -- the commit index may be raised to the snapshot's
  split
  · split
    · exact hstate _ _ hws
    · split <;> exact hstate _ _ hws
  · split
    · exact hws
    · split <;> exact hws

end RaftNode

/-! ## 3. The old format -/

/-- A file in the old format: one array of entries, from index 1 on. -/
def LegacyFile (content : List Char) (log : RaftLog) : Prop :=
  log.baseIndex = 0 ∧ Json.load content = some (.arr (log.entries.map (·.toJson)))

/-- What holds an array is not blank. -/
theorem blankLine_of_load_arr {content : List Char} {items : List Json}
    (h : Json.load content = some (.arr items)) : blankLine content = false :=
  List.all_eq_false.mpr ⟨'[', Json.mem_of_load_arr h, by decide⟩

theorem LegacyFile.loads {content : List Char} {log : RaftLog} (h : LegacyFile content log) :
    loadJournal content =
      .ok (log, some [.snapshot log.baseIndex log.baseTerm log.entries]) := by
  obtain ⟨hbase, hload⟩ := h
  have hfold : (log.entries.map (·.toJson)).foldlM appendRaw {} = .ok log := by
    rw [foldlM_appendRaw]
    have hempty : Shows ({} : RaftLog) [] 0 := Shows.full rfl
    obtain ⟨log', hfold, hs'⟩ := Shows.foldlM_appendEntry log.entries hempty (by
      rw [List.nil_append, ← hbase]
      exact log.contiguous)
    rw [hfold, hs'.unique (Shows.full hbase)]
    rfl
  unfold loadJournal
  rw [blankLine_of_load_arr hload, hload]
  simp only [Bool.false_eq_true, if_false, hfold]
  rfl

/-! ## 4. Runs -/

/-- The text of the journal and the log in memory, after any writes of a node. -/
inductive JournalRun : List Char → RaftLog → Prop
  /-- There is no file. -/
  | absent : JournalRun [] {}
  | migrated {content : List Char} {log log' : RaftLog} {records : Option (List LogRecord)}
      (hfile : LegacyFile content log) (hload : loadJournal content = .ok (log', records)) :
      JournalRun ((records.map journalText).getD content) log'
  | loaded {content : List Char} {log log' : RaftLog} {records : Option (List LogRecord)}
      (hrun : JournalRun content log) (hload : loadJournal content = .ok (log', records)) :
      JournalRun ((records.map journalText).getD content) log'
  | appended {content : List Char} {log log' : RaftLog} {entries : List LogEntry}
      (hrun : JournalRun content log)
      (happend : entries.foldlM RaftLog.appendEntry log = .ok log') :
      JournalRun (writeText content (appendLogEntries entries)) log'
  | changed {content : List Char} {log log' : RaftLog} (hrun : JournalRun content log)
      (hbase : log'.baseIndex = log.baseIndex) (hterm : log'.baseTerm = log.baseTerm)
      (n : RaftNode) :
      JournalRun (writeText content
        (RaftNode.persistLogChange log.entries log'.entries n).writes) log'
  | saved {content : List Char} {log log' : RaftLog} (hrun : JournalRun content log)
      (hterm : 0 ≤ log'.baseTerm) : JournalRun (writeText content (saveLog log')) log'

theorem loadLog_appendLogEntries : ∀ (entries : List LogEntry) {d : DataDir} {log log' : RaftLog},
    d.loadLog = .ok log → entries.foldlM RaftLog.appendEntry log = .ok log' →
    (d.writes (appendLogEntries entries)).loadLog = .ok log' := by
  intro entries
  induction entries with
  | nil =>
    intro d log log' hd hfold
    cases hfold
    exact hd
  | cons e entries ih =>
    intro d log log' hd hfold
    rw [List.foldlM_cons] at hfold
    cases happ : log.appendEntry e with
    | error err =>
      rw [happ] at hfold
      cases hfold
    | ok log₁ =>
      rw [happ] at hfold
      exact ih (DataDir.loadLog_append (r := .append e) hd happ) hfold

/-- A change of the log is written as records behind those that are there. -/
theorem persistLogChange_appends (before after : List LogEntry) (n : RaftNode) :
    ∃ written : List LogRecord,
      (RaftNode.persistLogChange before after n).writes = written.map .appendLog := by
  have happend : ∀ entries, appendLogEntries entries =
      (entries.map LogRecord.append).map .appendLog := fun entries => (List.map_map ..).symm
  unfold RaftNode.persistLogChange
  split
  · exact ⟨[], rfl⟩
  dsimp only
  generalize after.drop (RaftNode.commonPrefixLength before after) = newSuffix
  rcases before[RaftNode.commonPrefixLength before after]? with _ | replaced
  · refine ⟨newSuffix.map .append, ?_⟩
    rw [← happend]
    exact NodeM.writes_of_persist n _
  · rcases lt_or_ge 0 replaced.index with hpos | hle
    · refine ⟨.truncate replaced.index :: newSuffix.map .append, ?_⟩
      rw [List.map_cons, ← happend]
      change ((NodeM.lift (replaceLogSuffix replaced.index newSuffix) >>= NodeM.persist) n).writes =
        _
      rw [replaceLogSuffix, if_neg (not_le.mpr hpos)]
      exact NodeM.writes_of_persist n _
    · refine ⟨[], ?_⟩
      change ((NodeM.lift (replaceLogSuffix replaced.index newSuffix) >>= NodeM.persist) n).writes =
        _
      rw [replaceLogSuffix, if_pos hle]
      rfl

theorem writes_appendLog (written : List LogRecord) : ∀ {records : List LogRecord} {d : DataDir},
    d.logFile = some records →
    (d.writes (written.map .appendLog)).logFile = some (records ++ written) := by
  induction written with
  | nil =>
    intro records d hd
    rw [List.append_nil]
    exact hd
  | cons r written ih =>
    intro records d hd
    rw [List.append_cons]
    refine ih ?_
    change some (d.logFile.getD [] ++ [r]) = _
    rw [hd]
    rfl

theorem JournalRun.loads {content : List Char} {log : RaftLog} (h : JournalRun content log) :
    ∃ d, Spells content d ∧ d.loadLog = .ok log := by
  induction h with
  | absent => exact ⟨{}, rfl, rfl⟩
  | @migrated content log log' records hfile hload =>
    rw [hfile.loads] at hload
    cases hload
    have hterm : 0 ≤ log.baseTerm := (log.base_zero hfile.1).ge
    exact ⟨DataDir.writes {} (saveLog log), rfl, DataDir.loadLog_saveLog hterm⟩
  | @loaded content log log' records _ hload ih =>
    obtain ⟨d, hspells, hd⟩ := ih
    rw [hspells.loads hd] at hload
    cases hload
    exact ⟨d, hspells, hd⟩
  | @appended content log log' entries _ happend ih =>
    obtain ⟨d, hspells, hd⟩ := ih
    exact ⟨_, hspells.writes, loadLog_appendLogEntries entries hd happend⟩
  | @changed content log log' _ hbase hterm n ih =>
    obtain ⟨d, hspells, hd⟩ := ih
    obtain ⟨ws, hpersist, hloads, -, -⟩ := persistLogChange_loads hd hbase hterm n
    refine ⟨d.writes ws, ?_, hloads⟩
    rw [Outcome.writes, hpersist, NodeM.writes_of_persist]
    exact hspells.writes
  | saved _ hterm ih =>
    obtain ⟨d, hspells, -⟩ := ih
    exact ⟨_, hspells.writes, DataDir.loadLog_saveLog hterm⟩

/-- **The journal gives back the log**: after any writes of a node, `load_log` answers the log it
had in memory, a file in the old format its entries, and no node saves a log that does not come
back. -/
theorem journal_replays :
    (∀ {content : List Char} {log : RaftLog}, JournalRun content log →
      loadJournal content = .ok (log, none)) ∧
    (∀ {content : List Char} {log : RaftLog}, LegacyFile content log →
      loadJournal content = .ok (log, some [.snapshot log.baseIndex log.baseTerm log.entries])) ∧
    (∀ {records : List LogRecord} {log log' : RaftLog}, replayRecords records = .ok log →
      log'.baseIndex = log.baseIndex → log'.baseTerm = log.baseTerm → ∀ n : RaftNode,
      ∃ written : List LogRecord,
        (RaftNode.persistLogChange log.entries log'.entries n).result = .ok () ∧
        (RaftNode.persistLogChange log.entries log'.entries n).writes = written.map .appendLog ∧
        replayRecords (records ++ written) = .ok log') ∧
    Saving RaftNode.createSnapshot ∧
    (∀ clock request, Saving (RaftNode.handleInstallSnapshot clock request)) ∧
    ∀ nodeId members d clock, ∀ w ∈ (RaftNode.init nodeId members d clock).writes, w.SavesLog := by
  refine ⟨fun h => ?_, fun h => h.loads, ?_, RaftNode.createSnapshot_saving,
    RaftNode.handleInstallSnapshot_saving, RaftNode.init_saving⟩
  · obtain ⟨d, hspells, hd⟩ := h.loads
    exact hspells.loads hd
  · intro records log log' hrecords hbase hterm n
    obtain ⟨written, hwritten⟩ := persistLogChange_appends log.entries log'.entries n
    have hd : (⟨none, some records, none⟩ : DataDir).loadLog = .ok log :=
      DataDir.loadLog_eq_ok.mpr hrecords
    obtain ⟨ws, hpersist, hloads, -, -⟩ := persistLogChange_loads hd hbase hterm n
    have hws : ws = written.map .appendLog := by
      rw [← hwritten, Outcome.writes, hpersist, NodeM.writes_of_persist]
    refine ⟨written, by rw [hpersist], hwritten, ?_⟩
    rw [hws, DataDir.loadLog_eq_ok, writes_appendLog written rfl] at hloads
    exact hloads

/-- A value with a line break in it. -/
def twoLines : RaftLog := { entries := [⟨1, -1, ⟨.put, "key", some "one\ntwo"⟩⟩] }

theorem journal_replays_twoLines :
    loadJournal (writeText [] (appendLogEntries twoLines.entries)) = .ok (twoLines, none) ∧
      loadJournal ['[', ']'] = .ok ({}, some [.snapshot 0 0 []]) ∧
      ∃ written : List LogRecord, replayRecords ([] ++ written) = .ok twoLines := by
  obtain ⟨hloads, hlegacy, hwritten, -⟩ := journal_replays
  obtain ⟨written, -, -, hreplay⟩ := @hwritten [] {} twoLines rfl rfl rfl
    { nodeId := "a", members := ⟨["a"], by decide⟩, state := { nodeId := "a" }, snapshot := {},
      log := {}, store := {}, timer := ⟨0⟩ }
  exact ⟨hloads (.appended .absent rfl), hlegacy ⟨rfl, rfl⟩, written, hreplay⟩

end PyRaftKv
