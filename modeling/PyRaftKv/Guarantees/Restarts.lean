/-
# A start behind a crash, down to the texts of the files

The cluster stops a process between two durable effects.  A process really stops between two
operations on files, or inside one: `restart_after_crash` says that the next start does not see the
difference, but for a line of the journal that was cut short.
-/
import PyRaftKv.Guarantees.Malformed
import PyRaftKv.Guarantees.Promises
import PyRaftKv.Guarantees.Replay
import PyRaftKv.Raft.Files

namespace PyRaftKv

open Formats PyJson Cluster

/-! ## 1. Files and the model of a data directory -/

/-- The file has the text of the snapshot, with the items of its state in any order. -/
def HoldsSnapshot (file : Option (List Char)) : Option RaftSnapshot → Prop
  | none => file = none
  | some snapshot => ∃ entries, entries.Perm snapshot.state.toList ∧
      file = some (snapshot.text entries)

/-- The files hold the directory. -/
structure Holds (files : Files) (d : DataDir) : Prop where
  state : files statePath = d.stateFile.map (·.text)
  snapshot : HoldsSnapshot (files snapshotPath) d.snapshotFile
  journal : (files logPath).getD [] = journalText (d.logFile.getD [])

/-- The files of a directory. -/
def DataDir.files (d : DataDir) : Files := fun name =>
  if name = statePath then d.stateFile.map (·.text)
  else if name = snapshotPath then d.snapshotFile.map fun s => s.text s.state.toList
  else if name = logPath then d.logFile.map journalText
  else none

theorem DataDir.holds_files (d : DataDir) : Holds d.files d where
  state := if_pos rfl
  snapshot := by
    have hfile : d.files snapshotPath = d.snapshotFile.map fun s => s.text s.state.toList :=
      (if_neg (by decide)).trans (if_pos rfl)
    rw [hfile]
    cases d.snapshotFile with
    | none => rfl
    | some s => exact ⟨_, .refl _, rfl⟩
  journal := by
    have hfile : d.files logPath = d.logFile.map journalText :=
      (if_neg (by decide)).trans ((if_neg (by decide)).trans (if_pos rfl))
    rw [hfile]
    cases d.logFile with
    | none => rfl
    | some records => rfl

/-- So they do, with a first part of another line behind the journal. -/
structure HoldsTorn (files : Files) (d : DataDir) (piece : List Char) : Prop where
  state : files statePath = d.stateFile.map (·.text)
  snapshot : HoldsSnapshot (files snapshotPath) d.snapshotFile
  journal : files logPath = some (journalText (d.logFile.getD []) ++ piece)

section Holds

variable {files files' : Files} {d : DataDir} {s : FileStep} {tmp : String}

theorem getD_congr {x y : Option (List Char)} (h : x = y) : x.getD [] = y.getD [] :=
  congrArg (fun o => Option.getD o []) h

theorem Holds.agree (h : Holds files d) (htmp : IsTemp tmp)
    (hoff : Files.AgreeOff tmp files files') : Holds files' d where
  state := (hoff _ htmp.1.symm).trans h.state
  snapshot := hoff _ htmp.2.2.symm ▸ h.snapshot
  journal := (getD_congr (hoff _ htmp.2.1.symm)).trans h.journal

/-- The file that a write replaces, and what it then holds. -/
def FileStep.replaces (s : FileStep) : Option (String × List Char) :=
  match s.write with
  | .saveState state => some (statePath, state.text)
  | .saveSnapshot snapshot => some (snapshotPath, snapshot.text s.entries)
  | .rewriteLog records => some (logPath, journalText records)
  | .appendLog _ => none

/-- A file that is replaced. -/
theorem Holds.update (h : Holds files d) (hs : s.Fits) {target : String} {text : List Char}
    (hw : s.replaces = some (target, text)) :
    Holds (Function.update files target (some text)) (d.write s.write) := by
  have hsl : statePath ≠ logPath := by decide
  have hss : statePath ≠ snapshotPath := by decide
  have hls : logPath ≠ snapshotPath := by decide
  obtain ⟨tmp, entries, w⟩ := s
  cases w with
  | saveState state =>
    cases hw
    refine ⟨Function.update_self _ _ _, ?_,
      (getD_congr (Function.update_of_ne hsl.symm _ _)).trans h.journal⟩
    rw [Function.update_of_ne hss.symm]
    exact h.snapshot
  | saveSnapshot snapshot =>
    cases hw
    refine ⟨(Function.update_of_ne hss _ _).trans h.state, ?_,
      (getD_congr (Function.update_of_ne hls _ _)).trans h.journal⟩
    rw [Function.update_self]
    exact ⟨entries, hs.entries snapshot rfl, rfl⟩
  | rewriteLog records =>
    cases hw
    refine ⟨(Function.update_of_ne hsl _ _).trans h.state, ?_,
      getD_congr (Function.update_self logPath _ files)⟩
    rw [Function.update_of_ne hls.symm]
    exact h.snapshot
  | appendLog record => cases hw

/-- The journal alone is another one. -/
theorem Holds.withJournal (h : Holds files d) (text : List Char) :
    Function.update files logPath (some text) statePath = d.stateFile.map (·.text) ∧
      HoldsSnapshot (Function.update files logPath (some text) snapshotPath) d.snapshotFile := by
  refine ⟨(Function.update_of_ne (by decide) _ _).trans h.state, ?_⟩
  rw [Function.update_of_ne (by decide)]
  exact h.snapshot

/-- The journal with more text behind it. -/
theorem appended_eq (files : Files) (text : List Char) :
    (files.op (.openAppend logPath)).op (.write logPath text) =
      Function.update files logPath (some ((files logPath).getD [] ++ text)) := by
  simp [Files.op]

theorem Holds.append (h : Holds files d) (record : LogRecord) :
    Holds (Function.update files logPath (some ((files logPath).getD [] ++ journalText [record])))
      (d.write (.appendLog record)) := by
  obtain ⟨hstate, hsnapshot⟩ := h.withJournal ((files logPath).getD [] ++ journalText [record])
  refine ⟨hstate, hsnapshot, ?_⟩
  rw [Function.update_self, h.journal]
  exact (journalText_append _ [record]).symm

/-- **A write** brings the files to the directory after it. -/
theorem Holds.write (h : Holds files d) (hs : s.Fits) :
    Holds (files.ops s.ops) (d.write s.write) := by
  have htmp : IsTemp s.tmp := hs.tmp
  obtain ⟨tmp, entries, w⟩ := s
  cases w with
  | saveState state => exact (h.update hs rfl).agree htmp (ops_atomicWrite htmp.1)
  | saveSnapshot snapshot => exact (h.update hs rfl).agree htmp (ops_atomicWrite htmp.2.2)
  | rewriteLog records => exact (h.update hs rfl).agree htmp (ops_atomicWrite htmp.2.1)
  | appendLog record =>
    have hops : files.ops (FileStep.ops ⟨tmp, entries, .appendLog record⟩) = _ :=
      appended_eq files (journalText [record])
    rw [hops]
    exact h.append record

theorem Holds.writes {steps : List FileStep} : ∀ {files : Files} {d : DataDir},
    Holds files d → (∀ s ∈ steps, s.Fits) →
      Holds (files.ops (fileOps steps)) (d.writes (steps.map (·.write))) := by
  induction steps with
  | nil => exact fun h _ => h
  | cons s steps ih =>
    intro files d h hfits
    have hops : files.ops (fileOps (s :: steps)) = (files.ops s.ops).ops (fileOps steps) := by
      rw [fileOps, List.flatMap_cons]
      exact List.foldl_append
    rw [hops]
    exact ih (h.write (hfits s List.mem_cons_self))
      fun s' hs' => hfits s' (List.mem_cons_of_mem _ hs')

/-! ## 2. Stopping -/

/-- **A write that is not finished** is not begun or done, or a part of a line. -/
theorem Holds.crash (h : Holds files d) (hs : s.Fits) (hcrash : Crash s.ops files files') :
    Holds files' d ∨ Holds files' (d.write s.write) ∨
      ∃ record piece, s.write = .appendLog record ∧ piece <+: record.text ∧
        HoldsTorn files' d piece := by
  have htmp : IsTemp s.tmp := hs.tmp
  obtain ⟨tmp, entries, w⟩ := s
  cases w with
  | saveState state =>
    exact (hcrash.replaced htmp.1).imp (h.agree htmp) fun hoff =>
      Or.inl ((h.update hs rfl).agree htmp hoff)
  | saveSnapshot snapshot =>
    exact (hcrash.replaced htmp.2.2).imp (h.agree htmp) fun hoff =>
      Or.inl ((h.update hs rfl).agree htmp hoff)
  | rewriteLog records =>
    exact (hcrash.replaced htmp.2.1).imp (h.agree htmp) fun hoff =>
      Or.inl ((h.update hs rfl).agree htmp hoff)
  | appendLog record =>
    cases hcrash with
    | stop => exact Or.inl h
    | next hcrash =>
      obtain ⟨hstate, hsnapshot⟩ := h.withJournal ((files logPath).getD [])
      cases hcrash with
      | stop =>
        refine Or.inl ⟨hstate, hsnapshot, ?_⟩
        exact (getD_congr (Function.update_self logPath _ files)).trans h.journal
      | @torn _ _ piece _ _ hpiece =>
        rw [appended_eq]
        obtain ⟨hstate, hsnapshot⟩ := h.withJournal ((files logPath).getD [] ++ piece)
        rw [journalText_cons, show journalText [] = [] from rfl] at hpiece
        rcases List.prefix_concat_iff.mp hpiece with rfl | hpiece
        · have hdone := h.append record
          rw [journalText_cons] at hdone
          exact Or.inr (Or.inl hdone)
        · refine Or.inr (Or.inr ⟨record, piece, rfl, hpiece, hstate, hsnapshot, ?_⟩)
          rw [Function.update_self, h.journal]
      | next hcrash =>
        rw [hcrash.nil, appended_eq]
        exact Or.inr (Or.inl (h.append record))

/-- **Writes one after the other**, stopped anywhere. -/
theorem Holds.stopped {steps : List FileStep} : ∀ {files : Files} {d : DataDir},
    Holds files d → (∀ s ∈ steps, s.Fits) → Crash (fileOps steps) files files' →
      ∃ k, Holds files' (d.writes ((steps.map (·.write)).take k)) ∨
        ∃ record piece, (steps.map (·.write))[k]? = some (.appendLog record) ∧
          piece <+: record.text ∧
          HoldsTorn files' (d.writes ((steps.map (·.write)).take k)) piece := by
  induction steps with
  | nil =>
    intro files d h _ hcrash
    rw [hcrash.nil]
    exact ⟨0, Or.inl h⟩
  | cons s steps ih =>
    intro files d h hfits hcrash
    have hs := hfits s List.mem_cons_self
    rw [fileOps, List.flatMap_cons] at hcrash
    rcases hcrash.append with hcrash | hcrash
    · rcases h.crash hs hcrash with hold | hnew | ⟨record, piece, hw, hpiece, htorn⟩
      · exact ⟨0, Or.inl hold⟩
      · exact ⟨1, Or.inl hnew⟩
      · exact ⟨0, Or.inr ⟨record, piece, congrArg some hw, hpiece, htorn⟩⟩
    · obtain ⟨k, hk⟩ := ih (h.write hs)
        (fun s' hs' => hfits s' (List.mem_cons_of_mem _ hs')) hcrash
      exact ⟨k + 1, hk⟩

end Holds

/-! ## 3. Starting -/

/-- The files load as the directory does. -/
def LoadsAs (files : Files) (d : DataDir) : Prop :=
  loadStateFile plainPython files = .ok d.savedState.loaded ∧
    loadSnapshotFile plainPython files = .ok d.loadSnapshot ∧
    ∃ log, d.loadLog = .ok log ∧ loadLogFile plainPython files = .ok (log, none)

section Loading

variable {files : Files} {d : DataDir} {log : RaftLog} {record : LogRecord} {piece : List Char}

theorem loadStateFile_ok (h : files statePath = d.stateFile.map (·.text)) :
    loadStateFile plainPython files = .ok d.savedState.loaded := by
  unfold loadStateFile DataDir.savedState
  rw [h]
  rcases d.stateFile with _ | state
  · rfl
  · have hload : plainPython.loads state.text = .ok (ofJson state.toJson) :=
      plainPython_reads state.toJson
    simp only [Option.map_some, hload, stateFromDict_toJson]
    rfl

theorem loadSnapshotFile_ok (h : HoldsSnapshot (files snapshotPath) d.snapshotFile) :
    loadSnapshotFile plainPython files = .ok d.loadSnapshot := by
  unfold loadSnapshotFile DataDir.loadSnapshot
  rcases hsnapshot : d.snapshotFile with _ | snapshot
  · rw [hsnapshot] at h
    have hfile : files snapshotPath = none := h
    rw [hfile]
    rfl
  · rw [hsnapshot] at h
    obtain ⟨entries, hentries, hfile⟩ := h
    have hload : plainPython.loads (snapshot.text entries) >>= snapshotFromDict plainPython =
        .ok snapshot := by
      rw [RaftSnapshot.text, plainPython_reads]
      exact snapshotFromDict_toJson plainPython snapshot hentries
    simp only [hfile, hload]
    rfl

theorem loadLogFile_ok
    (h : loadJournal ((files logPath).getD []) = .ok (log, none)) :
    loadLogFile plainPython files = .ok (log, none) := by
  unfold loadLogFile
  rcases hfile : files logPath with _ | text
  · have hempty : loadJournal [] = .ok ({}, none) := by
      unfold loadJournal
      exact if_pos rfl
    rw [hfile] at h
    exact congrArg Except.ok (Except.ok.inj (hempty.symm.trans h))
  · rw [hfile] at h
    exact loadLog_of_loadJournal h

/-- **Files load as the directory that they hold.** -/
theorem Holds.loads (h : Holds files d) (hd : d.loadLog = .ok log) : LoadsAs files d := by
  refine ⟨loadStateFile_ok h.state, loadSnapshotFile_ok h.snapshot, log, hd, loadLogFile_ok ?_⟩
  rw [h.journal]
  exact loadJournal_ok (DataDir.loadLog_eq_ok.mp hd)

/-- A line that lacks its newline is read. -/
theorem loadJournal_unfinished (records : List LogRecord) (record : LogRecord) :
    loadJournal (journalText records ++ record.text) =
      loadJournal (journalText (records ++ [record])) := by
  have hlines : splitLines record.text = splitLines (journalText [record]) := by
    have hwhole := splitLines_journalText [record] []
    rw [List.append_nil] at hwhole
    rw [hwhole, splitLines_piece record.text_oneLine, if_neg record.whole_piece.1]
    rfl
  have hhead : ∃ u, journalText [record] = '{' :: u := by
    obtain ⟨s, hs⟩ := record.text_head
    exact ⟨_, by rw [journalText_cons, hs]; rfl⟩
  rw [journalText_append, loadJournal_append (Or.inr record.text_head),
    loadJournal_append (Or.inr hhead), hlines]

/-- The last line lacks its newline. -/
theorem HoldsTorn.loads_unfinished (h : HoldsTorn files d piece) (hwhole : piece = record.text)
    (hd : (d.write (.appendLog record)).loadLog = .ok log) :
    LoadsAs files (d.write (.appendLog record)) := by
  refine ⟨loadStateFile_ok h.state, loadSnapshotFile_ok h.snapshot, log, hd, loadLogFile_ok ?_⟩
  rw [h.journal, Option.getD_some, hwhole, loadJournal_unfinished]
  exact loadJournal_ok (DataDir.loadLog_eq_ok.mp hd)

theorem loadLines_append (lines lines' : List (List Char)) : ∀ (n : Nat) (log : RaftLog),
    loadLines plainPython n (lines ++ lines') log = loadLines plainPython n lines log >>= fun log =>
      loadLines plainPython (n + lines.length) lines' log := by
  induction lines with
  | nil =>
    intro n log
    rfl
  | cons line lines ih =>
    intro n log
    rw [List.cons_append, loadLines, loadLines, List.length_cons]
    split
    · rw [ih, Nat.add_right_comm, Nat.add_assoc]
    · rw [bind_assoc]
      refine congrArg (guarded (plainPython.loads line) >>= ·) (funext fun record => ?_)
      rw [bind_assoc]
      refine congrArg (loadRecord plainPython n log record >>= ·) (funext fun log => ?_)
      rw [ih, Nat.add_right_comm, Nat.add_assoc]

/-- A line that was cut short is not. -/
theorem loadLog_torn {records : List LogRecord} (hrecords : replayRecords records = .ok log)
    (hpiece : Piece record.text piece) (hne : piece ≠ record.text) :
    loadLog plainPython (journalText records ++ piece) =
      .error (.raftPersistenceError "Unable to load Raft log") := by
  have hhead : ∃ u, journalText records ++ piece = '{' :: u := by
    rcases journalText_head (Or.inr (piece_head hpiece)) with h | h
    · exact absurd (List.append_eq_nil_iff.mp h).2 hpiece.1
    · exact h
  have hread : loadLines plainPython 1 (records.map (·.text)) {} = .ok log := by
    refine loadLines_ofJson ?_
    have h := readLines_records records [] 1 {}
    rw [List.append_nil] at h
    rw [h]
    change hideError (replayRecords records) >>= _ = _
    rw [hrecords]
    rfl
  have hline : splitLines (journalText records ++ piece) = records.map (·.text) ++ [piece] := by
    rw [splitLines_journalText, splitLines_piece (record.text_oneLine.of_isPrefix hpiece.2),
      if_neg hpiece.1]
  have hload : plainPython.loads piece = .error .jsonDecodeError := by
    refine plainPython_refuses ?_
    rw [LogRecord.load_torn hpiece, if_neg hne]
  have hlines : loadLines plainPython 1 (splitLines (journalText records ++ piece)) {} =
      .error (.raftPersistenceError "Unable to load Raft log") := by
    rw [hline, loadLines_append, hread]
    change loadLines plainPython (1 + _) [piece] log = _
    rw [loadLines, if_neg (by rw [LogRecord.blankLine_torn hpiece]; exact Bool.false_ne_true),
      hload]
    rfl
  obtain ⟨u, hu⟩ := hhead
  have hblank : ¬ blankLine (journalText records ++ piece) = true := by
    rw [hu]
    simp [blankLine, isSpace]
  unfold loadLog
  rw [if_neg hblank, hlines]
  rcases hwhole : Json.load (journalText records ++ piece) with _ | value
  · rw [plainPython_refuses hwhole]
    rfl
  · rw [plainPython_loads hwhole]
    rw [hu] at hwhole
    obtain ⟨members, rfl⟩ := Json.load_brace hwhole
    rfl

end Loading

/-! ## 4. Crashes -/

/-- The durable effects of a stretch of member `v`, or of its start. -/
inductive Writing (c : Cluster) (v : NodeId) : List Write → Prop
  | running {p : Process} {op : Op} {t : Turn} (hp : c.process v = some p)
      (ht : p.turn c v op = some t) : Writing c v t.writes
  | starting (hdown : c.process v = none) (timeout : Nat) :
      Writing c v (RaftNode.init v c.members (c.disk v) ⟨c.now, timeout⟩).writes

/-- The member is down after some of these effects. -/
theorem Writing.stops {c : Cluster} {v : NodeId} {ws : List Write} (h : Writing c v ws) (k : Nat) :
    ∃ c', Step c c' ∧ c'.disk v = (c.disk v).writes (ws.take k) ∧ c'.process v = none := by
  cases h with
  | @running p op t hp ht =>
    have hstep : ∃ committed, c.step (.crash v op k) =
        some { c.down v (t.writes.take k) with committed } := by
      simp only [Cluster.step, hp, ht, Option.map_some]
      exact ⟨_, rfl⟩
    obtain ⟨committed, hstep⟩ := hstep
    exact ⟨_, ⟨_, hstep⟩, down_disk_self c (t.writes.take k),
      down_process_self c (t.writes.take k)⟩
  | starting hdown timeout =>
    have hstep : c.step (.startCrash v timeout k) = some (c.down v
        ((RaftNode.init v c.members (c.disk v) ⟨c.now, timeout⟩).writes.take k)) := by
      simp only [Cluster.step, hdown]
    exact ⟨_, ⟨_, hstep⟩, down_disk_self c _, down_process_self c _⟩

/-- What the files are behind a crash, where a start sees the first effects of `ws`. -/
def StartsAt (m : Members) (v : NodeId) (files : Files) (d : DataDir) : Prop :=
  LoadsAs files d ∧ ∀ clock, ∃ n, (RaftNode.init v m d clock).result = .ok n

/-- The journal ends with a part of `record`, and cannot be loaded. -/
def CutShort (files : Files) (record : LogRecord) : Prop :=
  (∃ text piece, files logPath = some (text ++ piece) ∧ Piece record.text piece ∧
      piece ≠ record.text) ∧
    loadLogFile plainPython files = .error (.raftPersistenceError "Unable to load Raft log")

/-- **A crash between any two operations on files, or inside one.**  In a reachable state, let the
files of a member hold its data directory, and let the member or its start write.  When it is done
the files hold the directory of the model.  Wherever it stops instead, the next start reads what the
model has behind a crash after some of the effects, and succeeds; only if a line was being appended
to the journal, the file may end with a part of that line, and cannot be loaded. -/
theorem restart_after_crash {m : Members} {c : Cluster} (hc : Reachable m c) {v : NodeId}
    (hv : v ∈ m) {ws : List Write} (hw : Writing c v ws) {files : Files}
    (hf : Holds files (c.disk v)) (steps : List FileStep)
    (hsteps : steps.map (·.write) = ws) (hfits : ∀ s ∈ steps, s.Fits) :
    Holds (files.ops (fileOps steps)) ((c.disk v).writes ws) ∧
      ∀ files', Crash (fileOps steps) files files' → ∃ k,
        StartsAt m v files' ((c.disk v).writes (ws.take k)) ∨
          ∃ record, ws[k]? = some (.appendLog record) ∧ CutShort files' record := by
  subst hsteps
  refine ⟨hf.writes hfits, fun files' hcrash => ?_⟩
  have hstart : ∀ k, (∃ log, ((c.disk v).writes ((steps.map (·.write)).take k)).loadLog = .ok log) ∧
      ∀ clock, ∃ n, (RaftNode.init v m ((c.disk v).writes ((steps.map (·.write)).take k))
        clock).result = .ok n := by
    intro k
    obtain ⟨c', hstep, hdisk, hdown⟩ := hw.stops k
    have hc' : Reachable m c' := hc.tail hstep
    rw [← hdisk]
    obtain ⟨g, hr, rfl⟩ := hc'.refines
    obtain ⟨hondisk, hrole⟩ := hr.down v hdown
    obtain ⟨journal, -, hjournal, -⟩ := hondisk.log
    refine ⟨⟨journal, hjournal⟩, fun clock => ?_⟩
    obtain ⟨n, ws, hinit, -⟩ := init_recovers hondisk hv hrole (hr.sound.peer v)
      (hr.peer_whole v) clock
    exact ⟨n, by rw [hinit]⟩
  obtain ⟨k, hholds | ⟨record, piece, hrecord, hpiece, htorn⟩⟩ := hf.stopped hfits hcrash
  · obtain ⟨⟨log, hlog⟩, hinit⟩ := hstart k
    exact ⟨k, Or.inl ⟨hholds.loads hlog, hinit⟩⟩
  · obtain ⟨⟨log, hlog⟩, hinit⟩ := hstart k
    by_cases hempty : piece = []
    · -- nothing of the line is there
      subst hempty
      have hholds : Holds files' ((c.disk v).writes ((steps.map (·.write)).take k)) := by
        refine ⟨htorn.state, htorn.snapshot, ?_⟩
        rw [htorn.journal, List.append_nil]
        rfl
      exact ⟨k, Or.inl ⟨hholds.loads hlog, hinit⟩⟩
    by_cases hwhole : piece = record.text
    · -- only the newline is missing
      obtain ⟨⟨log', hlog'⟩, hinit'⟩ := hstart (k + 1)
      have hnext : (c.disk v).writes ((steps.map (·.write)).take (k + 1)) =
          ((c.disk v).writes ((steps.map (·.write)).take k)).write (.appendLog record) := by
        rw [List.take_add_one, hrecord, DataDir.writes, List.foldl_append]
        rfl
      rw [hnext] at hlog' hinit'
      refine ⟨k + 1, Or.inl ?_⟩
      rw [hnext]
      exact ⟨htorn.loads_unfinished hwhole hlog', hinit'⟩
    · refine ⟨k, Or.inr ⟨record, hrecord, ⟨_, piece, htorn.journal, ⟨hempty, hpiece⟩, hwhole⟩, ?_⟩⟩
      unfold loadLogFile
      rw [htorn.journal]
      exact loadLog_torn (DataDir.loadLog_eq_ok.mp hlog) ⟨hempty, hpiece⟩ hwhole

/-- A write, with the items of a snapshot in the order of their keys. -/
def Write.sorted (w : Write) : FileStep where
  tmp := ".tmp"
  entries := match w with
    | .saveSnapshot snapshot => snapshot.state.toList
    | _ => []
  write := w

theorem Write.sorted_fits (w : Write) : w.sorted.Fits := by
  constructor
  · have htmp : ".tmp" ≠ statePath ∧ ".tmp" ≠ logPath ∧ ".tmp" ≠ snapshotPath := by decide
    exact htmp
  · rintro snapshot hw
    obtain rfl : w = .saveSnapshot snapshot := hw
    exact .refl _

/-- The leader takes another write. -/
def secondPut : Op := .submitCommands [{ operation := .put, key := "y", value := some "2" }]

/-- The leader appends the entry to its journal, and stops somewhere. -/
theorem restart_after_crash_secondPut : ∃ t : Turn, t.writes.length = 1 ∧
    ∀ files', Crash (fileOps (t.writes.map (·.sorted))) (afterFirstWrite.disk "a").files files' →
      ∃ k, StartsAt threeMembers "a" files' ((afterFirstWrite.disk "a").writes (t.writes.take k)) ∨
        ∃ record, t.writes[k]? = some (.appendLog record) ∧ CutShort files' record := by
  have hturn : ((afterFirstWrite.process "a").bind fun p =>
      (p.turn afterFirstWrite "a" secondPut).map (·.writes.length)) = some 1 := by
    decide +kernel
  obtain ⟨p, hp, hturn⟩ := Option.bind_eq_some_iff.mp hturn
  obtain ⟨t, ht, hlength⟩ := Option.map_eq_some_iff.mp hturn
  refine ⟨t, hlength, (restart_after_crash afterFirstWrite_reachable (by decide)
    (.running hp ht) (DataDir.holds_files _) (t.writes.map (·.sorted)) ?_ ?_).2⟩
  · rw [List.map_map]
    exact List.map_id _
  · intro s hs
    obtain ⟨w, -, rfl⟩ := List.mem_map.mp hs
    exact w.sorted_fits

end PyRaftKv
