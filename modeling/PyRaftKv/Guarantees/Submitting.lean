/-
# `submit_commands` when the disk fails

`submit_commands` appends the new entries to the log in memory and then to the journal.  If the
journal's call raises, with any number of its records on disk, nothing takes the entries back:
the leader's log is longer than what it has made durable, `advance_commit_index` counts the leader
with that longer log, and the next entries go on top of it (`failed_submit_keeps_entries`).  Unless
every record was written before the call raised, the journal then has a gap that `load_log` refuses.
-/
import PyRaftKv.Refinement.Leading
import PyRaftKv.Refinement.Merging

namespace PyRaftKv

/-! ## 1. The new entries -/

/-- `log'` is `log` with `es` on top. -/
structure RaftLog.Grown (log : RaftLog) (es : List LogEntry) (log' : RaftLog) : Prop where
  baseIndex : log'.baseIndex = log.baseIndex
  baseTerm : log'.baseTerm = log.baseTerm
  entries : log'.entries = log.entries ++ es

namespace RaftLog.Grown

variable {log log₁ log' : RaftLog} {es es' : List LogEntry}

theorem trans (h : log.Grown es log₁) (h' : log₁.Grown es' log') : log.Grown (es ++ es') log' :=
  ⟨h'.baseIndex.trans h.baseIndex, h'.baseTerm.trans h.baseTerm,
    by rw [h'.entries, h.entries, List.append_assoc]⟩

theorem lastIndex (h : log.Grown es log') : log'.lastIndex = log.lastIndex + es.length := by
  have hlen := congrArg List.length h.entries
  have hlast := log.lastIndex_eq
  have hlast' := log'.lastIndex_eq
  have hb := h.baseIndex
  rw [List.length_append] at hlen
  omega

theorem unique (h : log.Grown es log₁) (h' : log.Grown es log') : log₁ = log' :=
  RaftLog.ext (h.baseIndex.trans h'.baseIndex.symm) (h.baseTerm.trans h'.baseTerm.symm)
    (h.entries.trans h'.entries.symm)

/-- The first of the new entries is the next one. -/
theorem head_index {e : LogEntry} (h : log.Grown (e :: es) log') : e.index = log.lastIndex + 1 := by
  have hidx := log'.contiguous log.entries.length e (by rw [h.entries]; simp)
  have hlast := log.lastIndex_eq
  have hb := h.baseIndex
  omega

/-- The log with some of the new entries only. -/
theorem take (h : log.Grown es log') (k : Nat) : ∃ logk, log.Grown (es.take k) logk := by
  refine ⟨{ log' with
    entries := log'.entries.take (log.entries.length + k)
    contiguous := log'.contiguous.take _ }, h.baseIndex, h.baseTerm, ?_⟩
  change log'.entries.take (log.entries.length + k) = _
  rw [h.entries, List.take_length_add_append]

end RaftLog.Grown

/-- `[self.log.append(term, command) for command in commands]`, on any log. -/
theorem appendCommands_grown {term : Int} (ht : 0 ≤ term) :
    ∀ (commands : List RaftCommand) (log : RaftLog), ∃ es log',
      RaftNode.appendCommands term commands log = .ok (es, log') ∧ log.Grown es log' ∧
      es.length = commands.length := by
  intro commands
  induction commands with
  | nil => exact fun log => ⟨[], log, rfl, ⟨rfl, rfl, (List.append_nil _).symm⟩, rfl⟩
  | cons c cs ih =>
    intro log
    obtain ⟨log₁, happ, hg⟩ : ∃ log₁,
        log.append term c = .ok (⟨log.lastIndex + 1, term, c⟩, log₁) ∧
          log.Grown [⟨log.lastIndex + 1, term, c⟩] log₁ := by
      unfold RaftLog.append
      rw [if_neg (not_lt.mpr ht)]
      exact ⟨_, rfl, rfl, rfl, rfl⟩
    obtain ⟨es, log', hrest, hg', hlen⟩ := ih log₁
    refine ⟨⟨log.lastIndex + 1, term, c⟩ :: es, log', ?_, hg.trans hg', ?_⟩
    · simp only [RaftNode.appendCommands, happ, bind, Except.bind, hrest]
      rfl
    · rw [List.length_cons, List.length_cons, hlen]

theorem initializeLeaderReplication_effects (n : RaftNode) :
    (RaftNode.initializeLeaderReplication n).effects = [] ∧
      (RaftNode.initializeLeaderReplication n).node.log = n.log := by
  simp only [RaftNode.initializeLeaderReplication, NodeM.bind_run, NodeM.get_run,
    NodeM.andThen_ok, NodeM.ite_run, NodeM.behind_nil]
  split
  · exact ⟨rfl, rfl⟩
  · split
    · rcases LeaderReplication.new n.state n.log n.logObject n.members with e | r
      · exact ⟨rfl, rfl⟩
      · exact ⟨rfl, rfl⟩
    · exact ⟨rfl, rfl⟩

/-- **Where `submit_commands` asks for a durable effect**, its entries are in the log already. -/
theorem submitStart_effects (commands : List RaftCommand) (n : RaftNode) :
    (RaftNode.submitStart commands n).effects = [] ∨
      ∃ es log', n.log.Grown es log' ∧ es.length = commands.length ∧
        (RaftNode.submitStart commands n).effects =
          (appendLogEntries es).map (fun w => ⟨{ n with log := log' }, w⟩) ∧
        (RaftNode.submitStart commands n).node.log = log' := by
  simp only [RaftNode.submitStart, NodeM.bind_run, NodeM.get_run, NodeM.andThen_ok,
    NodeM.behind_nil, NodeM.ite_run, NodeM.pure_run, NodeM.raise_run]
  split
  · exact Or.inl rfl
  split
  · exact Or.inl rfl
  split
  · exact Or.inl rfl
  rename_i hempty _ _
  rcases commands.forM RaftNode.validateCommand with e | u
  · exact Or.inl rfl
  simp only [NodeM.lift_ok_run, NodeM.andThen_ok, NodeM.behind_nil, NodeM.bind_run]
  by_cases hterm : 0 ≤ n.state.currentTerm
  · obtain ⟨es, log', happ, hg, hlen⟩ := appendCommands_grown hterm commands n.log
    refine Or.inr ⟨es, log', hg, hlen, ?_⟩
    simp only [happ, NodeM.lift_ok_run, NodeM.andThen_ok, NodeM.behind_nil, NodeM.modify_run,
      NodeM.persist_run, NodeM.bind_run]
    obtain ⟨heff, hlog⟩ := initializeLeaderReplication_effects { n with log := log' }
    rcases hinit : RaftNode.initializeLeaderReplication { n with log := log' } with
      ⟨_ | _, n', effects⟩
    all_goals
      rw [hinit] at heff hlog
      obtain rfl : effects = [] := heff
      simp only [NodeM.andThen_ok, NodeM.andThen_error, NodeM.behind_mk, NodeM.pure_run,
        List.append_nil]
      exact ⟨trivial, hlog⟩
  · -- `append` refuses a negative term
    rcases commands with _ | ⟨c, cs⟩
    · exact absurd rfl hempty
    · obtain ⟨e, happ⟩ : ∃ e, RaftNode.appendCommands n.state.currentTerm (c :: cs) n.log =
          .error e := by
        simp only [RaftNode.appendCommands, RaftLog.append, if_pos (not_le.mp hterm)]
        exact ⟨_, rfl⟩
      simp only [happ, NodeM.lift_error_run, NodeM.andThen_error]
      exact Or.inl trivial

/-- The records of a call that asks for a durable effect, and where it asks for them. -/
theorem submitStart_writes {commands : List RaftCommand} {n : RaftNode}
    (h : (RaftNode.submitStart commands n).effects ≠ []) :
    ∃ es log', n.log.Grown es log' ∧ es ≠ [] ∧ es.length = commands.length ∧
      (RaftNode.submitStart commands n).writes = appendLogEntries es ∧
      (RaftNode.submitStart commands n).node.log = log' ∧
      ∀ effect ∈ (RaftNode.submitStart commands n).effects,
        effect.node = { n with log := log' } := by
  rcases submitStart_effects commands n with hnone | ⟨es, log', hg, hlen, heff, hlog⟩
  · exact absurd hnone h
  refine ⟨es, log', hg, ?_, hlen, ?_, hlog, fun effect he => ?_⟩
  · rintro rfl
    exact h heff
  · unfold Outcome.writes
    rw [heff, List.map_map]
    exact List.map_id _
  · rw [heff] at he
    obtain ⟨w, -, rfl⟩ := List.mem_map.mp he
    rfl

/-! ## 2. The journal -/

section Journal

variable {d : DataDir} {log log' : RaftLog}

/-- A log that goes on from another is what its journal gives once the new entries are in it. -/
theorem DataDir.loadLog_appendLogEntries {es : List LogEntry} (hd : d.loadLog = .ok log)
    (hg : log.Grown es log') : (d.writes (appendLogEntries es)).loadLog = .ok log' := by
  have hpadded : log'.padded = log.padded ++ es := by
    unfold RaftLog.padded RaftLog.padding
    rw [hg.baseIndex, hg.baseTerm, hg.entries, List.append_assoc]
  obtain ⟨log₁, hload, hs, -⟩ := DataDir.writes_appendLogEntries es hd log.padded_shows
    (hpadded ▸ log'.padded_contiguous)
  have hs' := log'.padded_shows
  rw [hg.baseIndex, hpadded] at hs'
  rw [hload, hs.unique hs']

theorem DataDir.loadLog_error_iff : (∃ e, d.loadLog = .error e) ↔
    ∃ e, (d.logFile.getD []).foldlM LogRecord.replay {} = .error e := by
  unfold DataDir.loadLog
  split <;> simp_all

/-- What cannot be read stays so. -/
theorem DataDir.loadLog_writes_error : ∀ (es : List LogEntry) {d : DataDir},
    (∃ e, d.loadLog = .error e) → ∃ e, (d.writes (appendLogEntries es)).loadLog = .error e
  | [], _, h => h
  | x :: es, d, h => by
    refine DataDir.loadLog_writes_error es (d := d.write (.appendLog (.append x))) ?_
    obtain ⟨e, he⟩ := DataDir.loadLog_error_iff.mp h
    refine DataDir.loadLog_error_iff.mpr ⟨e, ?_⟩
    change ((d.logFile.getD []) ++ [LogRecord.append x]).foldlM LogRecord.replay {} = _
    rw [List.foldlM_append, he]
    rfl

/-- A record that does not follow the last one makes the journal unreadable. -/
theorem DataDir.loadLog_gap {x : LogEntry} {es : List LogEntry} (hd : d.loadLog = .ok log)
    (hx : x.index ≠ log.lastIndex + 1) :
    ∃ e, (d.writes (appendLogEntries (x :: es))).loadLog = .error e := by
  refine DataDir.loadLog_writes_error es (d := d.write (.appendLog (.append x))) ?_
  obtain ⟨e, happ⟩ : ∃ e, LogRecord.replay log (.append x) = .error e := by
    change ∃ e, log.appendEntry x = .error e
    unfold RaftLog.appendEntry
    rw [dif_pos hx]
    exact ⟨_, rfl⟩
  refine DataDir.loadLog_error_iff.mpr ⟨e, ?_⟩
  change ((d.logFile.getD []) ++ [LogRecord.append x]).foldlM LogRecord.replay {} = _
  rw [List.foldlM_append, DataDir.loadLog_eq_ok.mp hd]
  change [LogRecord.append x].foldlM LogRecord.replay log = _
  rw [List.foldlM_cons, happ]
  rfl

/-- **Entries on top of ones of which the journal has the first `k`.**  The journal gives the log in
memory if it had all of them, and cannot be read otherwise. -/
theorem DataDir.loadLog_after_failed {es es' : List LogEntry} {log'' : RaftLog} {k : Nat}
    (hd : d.loadLog = .ok log) (hg : log.Grown es log') (hg' : log'.Grown es' log'')
    (hsome : es' ≠ []) (hk : k ≤ es.length) :
    (((d.writes (appendLogEntries (es.take k))).writes (appendLogEntries es')).loadLog =
        .ok log'' ↔ k = es.length) ∧
      (k ≠ es.length → ∃ e,
        ((d.writes (appendLogEntries (es.take k))).writes (appendLogEntries es')).loadLog =
          .error e) := by
  obtain ⟨logk, hgk⟩ := hg.take k
  have hload := DataDir.loadLog_appendLogEntries hd hgk
  have hgap : k ≠ es.length → ∃ e,
      ((d.writes (appendLogEntries (es.take k))).writes (appendLogEntries es')).loadLog =
        .error e := by
    intro hne
    rcases es' with _ | ⟨x, es'⟩
    · exact absurd rfl hsome
    · refine DataDir.loadLog_gap hload ?_
      have hx := hg'.head_index
      have hlast := hg.lastIndex
      have hlastk := hgk.lastIndex
      rw [List.length_take, min_eq_left hk] at hlastk
      omega
  refine ⟨⟨fun h => ?_, fun h => ?_⟩, hgap⟩
  · by_contra hne
    obtain ⟨e, he⟩ := hgap hne
    rw [he] at h
    cases h
  · rw [List.take_of_length_le h.ge] at hload hgk ⊢
    rw [hgk.unique hg] at hload
    exact DataDir.loadLog_appendLogEntries hload hg'

end Journal

/-! ## 3. A failed call -/

/-- **A call of `submit_commands` whose call of `append_log_entries` raises** with `k` of its
records on disk: the node and the files that it leaves. -/
structure FailedSubmit (n : RaftNode) (d : DataDir) (commands : List RaftCommand) (k : Nat)
    (n' : RaftNode) (d' : DataDir) : Prop where
  raises : ∃ effect, (RaftNode.submitStart commands n).effects.head? = some effect ∧
    effect.node = n'
  records : k ≤ (RaftNode.submitStart commands n).writes.length
  disk : d' = d.writes ((RaftNode.submitStart commands n).writes.take k)

/-- **All or nothing**: nothing in memory has changed, and a later call that succeeds leaves
a journal that gives the log in memory. -/
structure AllOrNothing (n n' : RaftNode) (d' : DataDir) : Prop where
  log : n'.log = n.log
  commitIndex : n'.state.commitIndex = n.state.commitIndex
  store : n'.store = n.store
  later : ∀ commands es n'' effects, RaftNode.submitStart commands n' = ⟨.ok es, n'', effects⟩ →
    (d'.writes (effects.map (·.write))).loadLog = .ok n''.log

/-- **No failed call is taken back.**  The new entries stay in memory, whatever the disk has of
them.  Where the files were in step with the log, they have the first `k` of the entries now; and
the next call that appends something leaves a journal that can be read only if all of them were
written. -/
theorem failed_submit_keeps_entries {n n' : RaftNode} {d d' : DataDir}
    {commands : List RaftCommand} {k : Nat} (hf : FailedSubmit n d commands k n' d') :
    ¬ AllOrNothing n n' d' ∧ n'.log.lastIndex = n.log.lastIndex + commands.length ∧
      (d.loadLog = .ok n.log →
        (∃ log, d'.loadLog = .ok log ∧ log.lastIndex = n.log.lastIndex + k) ∧
        ∀ commands' n'', RaftNode.submitStart commands' n' = n'' → n''.effects ≠ [] →
          ((d'.writes n''.writes).loadLog = .ok n''.node.log ↔ k = commands.length) ∧
          (k ≠ commands.length → ∃ e, (d'.writes n''.writes).loadLog = .error e)) := by
  obtain ⟨⟨effect, hhead, rfl⟩, hk, rfl⟩ := hf
  have hmem := List.mem_of_mem_head? hhead
  obtain ⟨es, log', hg, hne, hlen, hwrites, -, hnode⟩ :=
    submitStart_writes (List.ne_nil_of_mem hmem)
  rw [hnode effect hmem]
  have hlast := hg.lastIndex
  have hpos := List.length_pos_iff.mpr hne
  have hkes : k ≤ es.length := by simpa [hwrites] using hk
  rw [hwrites, DataDir.take_appendLogEntries]
  refine ⟨fun h => ?_, by change log'.lastIndex = _; omega, fun hd => ⟨?_, ?_⟩⟩
  · have hsame : log'.lastIndex = n.log.lastIndex := congrArg RaftLog.lastIndex h.log
    omega
  · obtain ⟨logk, hgk⟩ := hg.take k
    refine ⟨logk, DataDir.loadLog_appendLogEntries hd hgk, ?_⟩
    rw [hgk.lastIndex, List.length_take, min_eq_left hkes]
  · rintro commands' _ rfl hsome
    obtain ⟨es', log'', hg', hne', -, hwrites', hlog', -⟩ := submitStart_writes hsome
    rw [hwrites', hlog', ← hlen]
    exact DataDir.loadLog_after_failed hd hg hg' hne' hkes

/-- A leader with an empty log, in step with its empty data directory. -/
def newLeader : RaftNode where
  nodeId := "a"
  members := threeMembers
  state := { nodeId := "a", currentTerm := 1, votedFor := some "a", role := .leader }
  snapshot := {}
  log := {}
  store := {}
  timer := ⟨0⟩

/-- It is asked to delete a key, and its disk is full. -/
theorem failed_submit_keeps_entries_newLeader : ∃ n',
    FailedSubmit newLeader {} [⟨.delete, "k", none⟩] 0 n' {} ∧ n'.log.lastIndex = 1 := by
  obtain ⟨n', hf⟩ : ∃ n', FailedSubmit newLeader {} [⟨.delete, "k", none⟩] 0 n' {} :=
    ⟨_, ⟨_, rfl, rfl⟩, Nat.zero_le _, rfl⟩
  exact ⟨n', hf, (failed_submit_keeps_entries hf).2.1⟩

/-- **The entry that could not be written stays in the leader's log.** -/
theorem failed_submit_not_taken_back : ∃ n',
    FailedSubmit newLeader {} [⟨.delete, "k", none⟩] 0 n' {} ∧
      n'.log.entries = [⟨1, 1, ⟨.delete, "k", none⟩⟩] ∧ ¬ AllOrNothing newLeader n' {} := by
  refine ⟨_, ⟨⟨_, rfl, rfl⟩, Nat.zero_le _, rfl⟩, rfl, fun h => ?_⟩
  exact absurd (congrArg RaftLog.lastIndex h.log) (by decide)

end PyRaftKv
