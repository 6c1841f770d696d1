/-
# When `handle_append_entries` raises

The handler changes the term, the log, the commit index and the store one after the other, and
saves at its end.  It raises at an entry that does not fit the log, and at a committed entry that is
missing or has a bad command; whatever it has changed by then stays in memory and is not saved
(`raise_leaves_half`).  Nor does it look at what it saves: a request may cut the log below the
commit index that is on disk, or have a bad command committed by a later call.

`Orderly` says which requests do neither.  A raise on such a request changes nothing that the files
hold, and a start on the files succeeds after every run of such requests (`orderly_runs_sound`).
-/
import PyRaftKv.Guarantees.Failures

open Consensus

namespace PyRaftKv

/-! ## 1. Entries that fit a log -/

/-- **Entries that fit a log** one after another, and the log with them: each entry is there
already, takes the place of one of another term, or is the next. -/
inductive Fits : RaftLog → List LogEntry → RaftLog → Prop
  | nil (log : RaftLog) : Fits log [] log
  | held {log log' : RaftLog} {e x : LogEntry} {es : List LogEntry} :
      log.get e.index = some x → x.term = e.term → Fits log es log' → Fits log (e :: es) log'
  | replaces {log cut log₁ log' : RaftLog} {e x : LogEntry} {es : List LogEntry} :
      log.get e.index = some x → x.term ≠ e.term → log.truncateFrom e.index = .ok cut →
      cut.appendEntry e = .ok log₁ → Fits log₁ es log' → Fits log (e :: es) log'
  | next {log log₁ log' : RaftLog} {e : LogEntry} {es : List LogEntry} :
      log.get e.index = none → log.appendEntry e = .ok log₁ → Fits log₁ es log' →
      Fits log (e :: es) log'

section Fits

variable {log log' : RaftLog}

/-- The loop goes through entries that fit. -/
theorem Fits.sync {es : List LogEntry} (h : Fits log es log') (rest : List LogEntry) :
    syncEntries (es ++ rest) log = syncEntries rest log' := by
  induction h with
  | nil log => rfl
  | held hget hterm _ ih =>
    rw [List.cons_append, syncEntries]
    simp only [hget, hterm, if_true]
    exact ih
  | replaces hget hterm hcut happ _ ih =>
    rw [List.cons_append, syncEntries]
    simp only [hget, hterm, if_false, hcut, happ]
    exact ih
  | next hget happ _ ih =>
    rw [List.cons_append, syncEntries]
    simp only [hget, happ]
    exact ih

theorem fits_of_sync : ∀ {es : List LogEntry} {log : RaftLog},
    syncEntries es log = (.ok (), log') → Fits log es log' := by
  intro es
  induction es with
  | nil =>
    intro log h
    cases h
    exact .nil log'
  | cons e es ih =>
    intro log h
    unfold syncEntries at h
    split at h
    · rename_i hget
      split at h
      · cases h
      · rename_i log₁ happ
        exact .next hget happ (ih h)
    · rename_i x hget
      split at h
      · rename_i hterm
        exact .held hget hterm (ih h)
      · rename_i hterm
        split at h
        · cases h
        · rename_i cut hcut
          split at h
          · cases h
          · rename_i log₁ happ
            exact .replaces hget hterm hcut happ (ih h)

/-- And it goes through no others. -/
theorem fits_iff_sync {es : List LogEntry} :
    Fits log es log' ↔ syncEntries es log = (.ok (), log') := by
  constructor
  · intro h
    have hrun := h.sync []
    rwa [List.append_nil] at hrun
  · exact fits_of_sync

end Fits

/-! ## 2. Requests that leave nothing half done -/

/-- The log holds what is above its base up to `last`, with commands that can be applied. -/
def RaftLog.Replayable (log : RaftLog) (last : Int) : Prop :=
  ∀ i, log.baseIndex < i → i ≤ last → ∃ e ∈ log.get i, RaftNode.validateCommand e.command = .ok ()

theorem RaftLog.Replayable.le_lastIndex {log : RaftLog} {last : Int} (h : log.Replayable last) :
    last ≤ log.lastIndex := by
  refine RaftLog.le_lastIndex_of_get fun hlt => ?_
  obtain ⟨e, he, -⟩ := h last hlt le_rfl
  exact ⟨e, he⟩

/-- The commit index that `update_follower_commit` sets, on a log that ends at `lastIndex`. -/
def AppendEntriesRequest.commits (r : AppendEntriesRequest) (commitIndex lastIndex : Int) : Int :=
  if r.leaderCommit ≤ commitIndex then commitIndex else min r.leaderCommit lastIndex

/-- **The files are in step with the node**, and a start replays them. -/
structure Healthy (n : RaftNode) (d : DataDir) : Prop where
  member : n.nodeId ∈ n.members
  saved : Saved d n
  snapshotIndex : n.snapshot.lastIncludedIndex = n.log.baseIndex
  snapshotTerm : n.snapshot.lastIncludedTerm = n.log.baseTerm
  base : n.log.baseIndex ≤ n.state.commitIndex
  applied : n.state.commitIndex ≤ n.state.lastApplied
  committed : n.log.Replayable n.state.commitIndex

/-- **A request that leaves nothing half done**: it is refused, or its entries fit and what is
committed then can be applied, or the first entry that does not fit comes before any change. -/
inductive Orderly (n : RaftNode) (r : AppendEntriesRequest) : Prop
  | stale : r.term < n.state.currentTerm → Orderly n r
  | unmatched : n.log.termAt r.prevLogIndex ≠ some r.prevLogTerm → Orderly n r
  | fits (log : RaftLog) : Fits n.log r.entries log →
      log.Replayable (r.commits n.state.commitIndex log.lastIndex) → Orderly n r
  | misfit (before : List LogEntry) (e : LogEntry) (rest : List LogEntry) :
      r.term = n.state.currentTerm → r.entries = before ++ e :: rest → Fits n.log before n.log →
      n.log.get e.index = none → e.index ≠ n.log.lastIndex + 1 → Orderly n r

/-- **A call leaves nothing half done**: if it raises, the node has the log, the commit index and
the store that it had, and the files hold its term, vote, commit index and log. -/
structure RaisesClean (n : RaftNode) (d : DataDir) (o : Outcome AppendEntriesResponse) : Prop where
  log : ∀ e, o.result = .error e → o.node.log = n.log
  commitIndex : ∀ e, o.result = .error e → o.node.state.commitIndex = n.state.commitIndex
  lastApplied : ∀ e, o.result = .error e → o.node.state.lastApplied = n.state.lastApplied
  store : ∀ e, o.result = .error e → o.node.store = n.store
  savedState : ∀ e, o.result = .error e →
    (d.writes o.writes).savedState = o.node.state.persisted
  savedLog : ∀ e, o.result = .error e → (d.writes o.writes).loadLog = .ok o.node.log

section Call

variable {n : RaftNode} {d : DataDir} {r : AppendEntriesRequest}

theorem RaisesClean.of_ok {o : Outcome AppendEntriesResponse} {a : AppendEntriesResponse}
    (h : o.result = .ok a) : RaisesClean n d o := by
  constructor
  all_goals
    intro e he
    rw [h] at he
    cases he

theorem handleAppendEntries_raised (clock : Clock) {e : RaftError} {state : RaftState}
    {log : RaftLog} {store : KVStore}
    (hrun : PyRaftKv.handleAppendEntries n.state n.log r n.store = (.error e, state, log, store)) :
    RaftNode.handleAppendEntries clock r n = ⟨.error e, { n with state, log, store }, []⟩ := by
  simp only [RaftNode.handleAppendEntries, NodeM.bind_run, NodeM.get_run, NodeM.andThen_ok,
    NodeM.behind_nil, NodeM.modify_run, hrun]
  rfl

/-- **A call that answers** saves what it leaves. -/
theorem handleAppendEntries_answered (clock : Clock) {a : AppendEntriesResponse}
    {state : RaftState} {log : RaftLog} {store : KVStore} (hd : Saved d n)
    (hrun : PyRaftKv.handleAppendEntries n.state n.log r n.store = (.ok a, state, log, store)) :
    (RaftNode.handleAppendEntries clock r n).result = .ok a ∧
      (∃ replication timer, (RaftNode.handleAppendEntries clock r n).node =
        { n with state, log, store, replication, timer }) ∧
      Saved (d.writes (RaftNode.handleAppendEntries clock r n).writes)
        (RaftNode.handleAppendEntries clock r n).node := by
  have hbase := handleAppendEntries_base n.state n.log r n.store
  rw [hrun] at hbase
  obtain ⟨ws₁, hpersist, hlog, hstate, hsnap⟩ := persistLogChange_loads hd.log hbase.1 hbase.2
    { n with state, log, store }
  obtain ⟨hok, hnode, ws₂, hwrites, hws₂⟩ := handleAppendEntries_writes clock hrun hpersist
  refine ⟨hok, hnode, ?_⟩
  obtain ⟨replication, timer, hnode⟩ := hnode
  rw [hnode, hwrites, DataDir.writes_append]
  rcases hws₂ with rfl | ⟨rfl, hsame⟩
  · exact ⟨rfl, hsnap.trans hd.snapshot, hlog⟩
  · exact ⟨hstate.trans (hd.state.trans hsame.symm), hsnap.trans hd.snapshot, hlog⟩

/-- A call that answers on a log that a start replays up to the commit index. -/
theorem Healthy.answered (h : Healthy n d) (clock : Clock) {a : AppendEntriesResponse}
    {state : RaftState} {log : RaftLog} {store : KVStore}
    (hrun : PyRaftKv.handleAppendEntries n.state n.log r n.store = (.ok a, state, log, store))
    (hbase : n.log.baseIndex ≤ state.commitIndex) (happlied : state.commitIndex ≤ state.lastApplied)
    (hcommitted : log.Replayable state.commitIndex) :
    Healthy (RaftNode.handleAppendEntries clock r n).node
        (d.writes (RaftNode.handleAppendEntries clock r n).writes) ∧
      RaisesClean n d (RaftNode.handleAppendEntries clock r n) := by
  have hsame := handleAppendEntries_base n.state n.log r n.store
  rw [hrun] at hsame
  obtain ⟨hok, ⟨replication, timer, hnode⟩, hsaved⟩ :=
    handleAppendEntries_answered clock h.saved hrun
  refine ⟨?_, .of_ok hok⟩
  rw [hnode] at hsaved ⊢
  exact {
    member := h.member
    saved := hsaved
    snapshotIndex := h.snapshotIndex.trans hsame.1.symm
    snapshotTerm := h.snapshotTerm.trans hsame.2.symm
    base := hsame.1.trans_le hbase
    applied := happlied
    committed := hcommitted }

theorem follow_persisted {s : RaftState} {term : Int} (leaderId : Option NodeId)
    (h : term = s.currentTerm) : (s.follow term leaderId).persisted = s.persisted := by
  unfold RaftState.follow RaftState.persisted
  rw [if_neg (by omega), h]

/-- A refused request. -/
theorem Healthy.refused (h : Healthy n d) (clock : Clock)
    (hr : r.term < n.state.currentTerm ∨ n.log.termAt r.prevLogIndex ≠ some r.prevLogTerm) :
    Healthy (RaftNode.handleAppendEntries clock r n).node
        (d.writes (RaftNode.handleAppendEntries clock r n).writes) ∧
      RaisesClean n d (RaftNode.handleAppendEntries clock r n) := by
  by_cases hstale : r.term < n.state.currentTerm
  · exact h.answered clock (handleAppendEntries_stale hstale) h.base h.applied h.committed
  · exact h.answered clock
      (handleAppendEntries_mismatch (not_lt.mp hstale) (hr.resolve_left hstale)) h.base h.applied
      h.committed

/-- A request whose entries are in `log` now, and whose commit index can be applied there. -/
theorem Healthy.commits (h : Healthy n d) (clock : Clock) {log : RaftLog}
    (hbase : log.baseIndex = n.log.baseIndex)
    (hcommits : log.Replayable (r.commits n.state.commitIndex log.lastIndex))
    (hrun : PyRaftKv.handleAppendEntries n.state n.log r n.store =
      commitAndAnswer (n.state.follow r.term (some r.leaderId)) log r n.store) :
    Healthy (RaftNode.handleAppendEntries clock r n).node
        (d.writes (RaftNode.handleAppendEntries clock r n).writes) ∧
      RaisesClean n d (RaftNode.handleAppendEntries clock r n) := by
  have hb := h.base
  have ha := h.applied
  have happliable : (updateFollowerCommit (n.state.follow r.term (some r.leaderId)) log n.store
      r.leaderCommit).1 = .ok () := by
    refine (updateFollowerCommit_ok_iff _ _ _ _).mpr ?_
    rcases Int.lt_or_le n.state.commitIndex r.leaderCommit with hlt | hle
    · refine Or.inr fun i hi hle => hcommits i ?_ ?_
      · have hi' : n.state.lastApplied < i := hi
        omega
      · rwa [AppendEntriesRequest.commits, if_neg (not_le.mpr hlt)]
    · exact Or.inl hle
  obtain ⟨state, store, hanswer, hstate⟩ := commitAndAnswer_ok happliable
  have hcommit : state.commitIndex = r.commits n.state.commitIndex log.lastIndex ∧
      state.commitIndex ≤ state.lastApplied ∧ n.log.baseIndex ≤ state.commitIndex := by
    have hlast := log.base_le_lastIndex
    unfold AppendEntriesRequest.commits
    rw [hstate]
    split
    · rename_i hle
      have hle' : r.leaderCommit ≤ n.state.commitIndex := hle
      rw [if_pos hle']
      exact ⟨rfl, ha, hb⟩
    · rename_i hlt
      have hlt' : ¬ r.leaderCommit ≤ n.state.commitIndex := hlt
      rw [if_neg hlt']
      refine ⟨rfl, le_max_right _ _, ?_⟩
      change n.log.baseIndex ≤ min r.leaderCommit log.lastIndex
      omega
  refine h.answered clock (hrun.trans hanswer) hcommit.2.2 hcommit.2.1 ?_
  rw [hcommit.1]
  exact hcommits

/-- A request of the current term that raises on the log it found. -/
theorem Healthy.raised (h : Healthy n d) (clock : Clock) {e : RaftError}
    (hterm : r.term = n.state.currentTerm)
    (hrun : PyRaftKv.handleAppendEntries n.state n.log r n.store =
      (.error e, n.state.follow r.term (some r.leaderId), n.log, n.store)) :
    Healthy (RaftNode.handleAppendEntries clock r n).node
        (d.writes (RaftNode.handleAppendEntries clock r n).writes) ∧
      RaisesClean n d (RaftNode.handleAppendEntries clock r n) := by
  rw [handleAppendEntries_raised clock hrun]
  have hstate := h.saved.state.trans (follow_persisted (some r.leaderId) hterm).symm
  constructor
  · exact ⟨h.member, ⟨hstate, h.saved.snapshot, h.saved.log⟩, h.snapshotIndex, h.snapshotTerm,
      h.base, h.applied, h.committed⟩
  · exact ⟨fun _ _ => rfl, fun _ _ => rfl, fun _ _ => rfl, fun _ _ => rfl, fun _ _ => hstate,
      fun _ _ => h.saved.log⟩

/-- **One call** on an orderly request. -/
theorem Healthy.call (h : Healthy n d) (ho : Orderly n r) (clock : Clock) :
    Healthy (RaftNode.handleAppendEntries clock r n).node
        (d.writes (RaftNode.handleAppendEntries clock r n).writes) ∧
      RaisesClean n d (RaftNode.handleAppendEntries clock r n) := by
  by_cases hr : r.term < n.state.currentTerm ∨ n.log.termAt r.prevLogIndex ≠ some r.prevLogTerm
  · exact h.refused clock hr
  obtain ⟨hge, hprev⟩ := not_or.mp hr
  have hmatch := handleAppendEntries_match n.store (not_lt.mp hge) (not_not.mp hprev)
  cases ho with
  | stale hstale => exact absurd hstale hge
  | unmatched hne => exact absurd hne hprev
  | fits log hfits hcommits =>
    have hbase := (syncEntries_base r.entries n.log).1
    rw [fits_iff_sync.mp hfits] at hmatch hbase
    exact h.commits clock hbase hcommits hmatch
  | misfit before e rest hterm hentries hfits hget hne =>
    -- the loop raises at `e`, on the log that it began with
    obtain ⟨error, hsync⟩ : ∃ error, syncEntries r.entries n.log = (.error error, n.log) := by
      rw [hentries, hfits.sync, syncEntries]
      simp only [hget]
      unfold RaftLog.appendEntry
      rw [dif_pos hne]
      exact ⟨_, rfl⟩
    rw [hsync] at hmatch
    exact h.raised clock hterm hmatch

/-- **A start on healthy files succeeds.** -/
theorem Healthy.starts (h : Healthy n d) (clock : Clock) :
    ∃ n' ws, RaftNode.init n.nodeId n.members d clock = ⟨.ok n', ws⟩ := by
  have hindex : d.loadSnapshot.lastIncludedIndex = n.log.baseIndex := by
    rw [h.saved.snapshot, h.snapshotIndex]
  have hterm : d.loadSnapshot.lastIncludedTerm = n.log.baseTerm := by
    rw [h.saved.snapshot, h.snapshotTerm]
  have hcommit : (d.loadState n.nodeId).commitIndex = n.state.commitIndex := by
    rw [DataDir.loadState_eq, h.saved.state]
    rfl
  have hbase := h.base
  have hlast := h.committed.le_lastIndex
  -- the loop of the replay runs through commands that can be applied
  have happ : ∀ store, (applyCommittedEntries
      { d.loadState n.nodeId with lastApplied := d.loadSnapshot.lastIncludedIndex } n.log store).1 =
        .ok () := by
    intro store
    unfold applyCommittedEntries
    refine (applyEntries_ok_iff _ _ _).mpr fun i hi hle => ?_
    simp only [hindex, hcommit] at hi hle
    exact h.committed i hi (by omega)
  have hup : ¬ (d.loadState n.nodeId).commitIndex < d.loadSnapshot.lastIncludedIndex := by
    rw [hcommit, hindex]
    exact not_lt.mpr hbase
  have hdown : ¬ (d.loadState n.nodeId).commitIndex > n.log.lastIndex := by
    rw [hcommit]
    exact not_lt.mpr hlast
  have hreplay := happ (KVStore.restore {} d.loadSnapshot.state)
  rcases hrun : applyCommittedEntries
      { d.loadState n.nodeId with lastApplied := d.loadSnapshot.lastIncludedIndex } n.log
      (KVStore.restore {} d.loadSnapshot.state) with ⟨_ | ⟨⟨⟩⟩, state, store⟩
  · rw [hrun] at hreplay
    cases hreplay
  · refine ⟨{
      nodeId := n.nodeId, members := n.members, snapshot := d.loadSnapshot, log := n.log, store
      state := { state with role := .follower, leaderId := none }
      timer := .reset clock.now clock.timeout }, [], ?_⟩
    have hbelow : ¬ d.loadSnapshot.lastIncludedIndex < n.log.baseIndex := by omega
    have hagree : ¬ (d.loadSnapshot.lastIncludedIndex = n.log.baseIndex ∧
        d.loadSnapshot.lastIncludedTerm ≠ n.log.baseTerm) := fun hne => hne.2 hterm
    have habove : ¬ d.loadSnapshot.lastIncludedIndex > n.log.baseIndex := by omega
    simp only [RaftNode.init, not_not.mpr h.member, if_false, h.saved.log, if_neg hbelow,
      if_neg hagree, if_neg habove, if_neg hup, if_neg hdown, hrun]

end Call

/-- **Every running member is healthy**, in a cluster whose members follow the protocol. -/
theorem Up.healthy {m : Members} {v : NodeId} {n : RaftNode} {d : DataDir} {p : PeerState}
    {h : Hist} (hu : Up m v n d p h) (hp : p.Sound h v) (hw : Whole p.log) : Healthy n d where
  member := by
    rw [hu.id, hu.members]
    exact hu.member
  saved := hu.saved
  snapshotIndex := by rw [hu.mirrors.snapshot.index, hu.mirrors.log.base]
  snapshotTerm := by rw [hu.mirrors.snapshot.term, hu.mirrors.log.baseTerm]
  base := by
    rw [hu.mirrors.log.base, hu.mirrors.commit]
    exact Int.ofNat_le.mpr hp.base_le
  applied := by rw [hu.mirrors.commit, hu.mirrors.applied]
  committed := by
    intro i hi hle
    rw [hu.mirrors.log.base] at hi
    rw [hu.mirrors.commit] at hle
    have hlen := hp.commit_le
    obtain ⟨k, rfl⟩ : ∃ k : Nat, i = k + 1 := ⟨(i - 1).toNat, by omega⟩
    have hk : k < p.log.length := by omega
    refine ⟨p.log[k], ?_, hw.valid _ (List.getElem_mem hk)⟩
    rw [hu.mirrors.log.get_getElem? (by omega)]
    exact List.getElem?_eq_getElem hk

/-! ## 3. Runs -/

namespace Session

/-- A start on the files of the node succeeds. -/
def Restarts (s : Session) : Prop :=
  ∀ clock, ∃ n ws, RaftNode.init s.node.nodeId s.node.members s.disk clock = ⟨.ok n, ws⟩

/-- The node is sent an AppendEntries that leaves nothing half done. -/
def OrderlyStep (s s' : Session) : Prop :=
  ∃ clock r, Orderly s.node r ∧ s' = s.after clock (.appendEntries r)

theorem after_appendEntries (s : Session) (clock : Clock) (r : AppendEntriesRequest) :
    (s.after clock (.appendEntries r)).node = (RaftNode.handleAppendEntries clock r s.node).node ∧
      (s.after clock (.appendEntries r)).disk =
        s.disk.writes (RaftNode.handleAppendEntries clock r s.node).writes := by
  refine ⟨?_, congrArg s.disk.writes (serve_writes clock r s.node)⟩
  change (serve clock (.appendEntries r) s.node).node = _
  rw [serve_appendEntries]
  rcases RaftNode.handleAppendEntries clock r s.node with ⟨_ | a, n', es⟩ <;> rfl

theorem OrderlyStep.healthy {s s' : Session} (h : Healthy s.node s.disk)
    (hstep : s.OrderlyStep s') : Healthy s'.node s'.disk := by
  obtain ⟨clock, r, ho, rfl⟩ := hstep
  obtain ⟨hnode, hdisk⟩ := s.after_appendEntries clock r
  rw [hnode, hdisk]
  exact (h.call ho clock).1

end Session

/-- **Orderly requests leave nothing half done** in any run of them from healthy files: a start on
the files succeeds, and a call that raises has changed nothing that it does not take back. -/
theorem orderly_runs_sound {s s' : Session} (h : Healthy s.node s.disk)
    (hrun : Relation.ReflTransGen Session.OrderlyStep s s') :
    s'.Restarts ∧ ∀ clock r, Orderly s'.node r →
      RaisesClean s'.node s'.disk (RaftNode.handleAppendEntries clock r s'.node) := by
  have hend : Healthy s'.node s'.disk := by
    induction hrun with
    | refl => exact h
    | tail _ hstep ih => exact hstep.healthy ih
  exact ⟨hend.starts, fun clock r ho => (hend.call ho clock).2⟩

/-! ## 4. What other requests leave -/

/-- The leader of term 1 sends an entry, and one that skips an index. -/
def gapAppend : AppendEntriesRequest :=
  ⟨1, "a", 0, 0, [⟨1, 1, ⟨.put, "x", some "1"⟩⟩, ⟨3, 1, ⟨.put, "x", some "3"⟩⟩], 0⟩

/-- An entry, committed. -/
def committedAppend : AppendEntriesRequest :=
  ⟨1, "a", 0, 0, [⟨1, 1, ⟨.put, "x", some "1"⟩⟩], 1⟩

/-- Another entry in its place: a PUT without a value. -/
def valuelessAppend : AppendEntriesRequest :=
  ⟨2, "a", 0, 0, [⟨1, 2, ⟨.put, "x", none⟩⟩], 1⟩

/-- **A raise leaves half of a change**, and requests that do not raise leave files that refuse to
start.  The first is raised at its second entry: the node is in term 1 with one entry, and its files
are in term 0 with none.  The two others are answered with success, and the entry at the commit
index has no value then. -/
theorem raise_leaves_half : ∃ s, Session.Started s ∧
    ((∃ e, (RaftNode.handleAppendEntries ⟨10, 1500⟩ gapAppend s.node).result = .error e) ∧
      ¬ RaisesClean s.node s.disk (RaftNode.handleAppendEntries ⟨10, 1500⟩ gapAppend s.node)) ∧
    ¬ ((s.after ⟨10, 1500⟩ (.appendEntries committedAppend)).after ⟨20, 1500⟩
      (.appendEntries valuelessAppend)).Restarts := by
  have hgap : (freshFollower.map fun s =>
      let o := RaftNode.handleAppendEntries ⟨10, 1500⟩ gapAppend s.node
      (o.result.toOption.isNone, s.node.log.entries.length, o.node.log.entries.length)) =
        some (true, 0, 1) := by
    rfl
  have hstart : (freshFollower.map fun s =>
      let s' := (s.after ⟨10, 1500⟩ (.appendEntries committedAppend)).after ⟨20, 1500⟩
        (.appendEntries valuelessAppend)
      (RaftNode.init s'.node.nodeId s'.node.members s'.disk ⟨30, 1500⟩).result.toOption.isNone) =
        some true := by
    rfl
  obtain ⟨s, hs, hend⟩ := Option.map_eq_some_iff.mp hgap
  rw [hs] at hstart
  refine ⟨s, freshFollower_started hs, ?_, fun hrestarts => ?_⟩
  · obtain ⟨hraise, hlens⟩ := Prod.mk.inj hend
    obtain ⟨hbefore, hafter⟩ := Prod.mk.inj hlens
    rcases hresult : (RaftNode.handleAppendEntries ⟨10, 1500⟩ gapAppend s.node).result with e | a
    · refine ⟨⟨e, rfl⟩, fun hclean => ?_⟩
      rw [hclean.log e hresult, hbefore] at hafter
      cases hafter
    · rw [hresult] at hraise
      cases hraise
  · obtain ⟨n, ws, hinit⟩ := hrestarts ⟨30, 1500⟩
    have hok := Option.some.inj hstart
    simp only [hinit] at hok
    cases hok

/-- The next request skips an index at its first entry. -/
def skippingAppend : AppendEntriesRequest :=
  ⟨1, "a", 1, 1, [⟨3, 1, ⟨.put, "x", some "3"⟩⟩], 1⟩

/-- What a first start leaves. -/
theorem freshFollower_eq {s : Session} (hs : freshFollower = some s) :
    s.node.nodeId ∈ s.node.members ∧ s.node.snapshot = {} ∧ s.node.log = {} ∧
      s.node.state = { nodeId := "b" } ∧ s.disk = {} := by
  have hfresh : (freshFollower.map fun s => (s.node.nodeId, s.node.members, s.node.snapshot,
      s.node.log, s.node.state, s.disk)) =
      some ("b", { ids := ["a", "b"] }, {}, {}, { nodeId := "b" }, {}) := by
    rfl
  rw [hs] at hfresh
  obtain ⟨hid, hend⟩ := Prod.mk.inj (Option.some.inj hfresh)
  obtain ⟨hmembers, hend⟩ := Prod.mk.inj hend
  obtain ⟨hsnapshot, hend⟩ := Prod.mk.inj hend
  obtain ⟨hlog, hend⟩ := Prod.mk.inj hend
  obtain ⟨hstate, hdisk⟩ := Prod.mk.inj hend
  refine ⟨?_, hsnapshot, hlog, hstate, hdisk⟩
  rw [hid, hmembers]
  decide

theorem freshFollower_healthy {s : Session} (hs : freshFollower = some s) :
    Healthy s.node s.disk := by
  obtain ⟨hmember, hsnapshot, hlog, hstate, hdisk⟩ := freshFollower_eq hs
  refine ⟨hmember, ⟨?_, ?_, ?_⟩, ?_, ?_, ?_, ?_, fun i hi hle => ?_⟩
  · rw [hdisk, hstate]
    rfl
  · rw [hdisk, hsnapshot]
    rfl
  · rw [hdisk, hlog]
    rfl
  · rw [hsnapshot, hlog]
  · rw [hsnapshot, hlog]
  · rw [hlog, hstate]
  · rw [hstate]
  · rw [hlog] at hi
    rw [hstate] at hle
    exact absurd hi (not_lt.mpr hle)

theorem committedAppend_orderly {s : Session} (hs : freshFollower = some s) :
    Orderly s.node committedAppend := by
  obtain ⟨-, -, hlog, hstate, -⟩ := freshFollower_eq hs
  obtain ⟨log₁, happ⟩ : ∃ log₁, RaftLog.appendEntry {} ⟨1, 1, ⟨.put, "x", some "1"⟩⟩ = .ok log₁ :=
    RaftLog.appendEntry_next rfl
  obtain ⟨hb, -, -, hend, hheld, -⟩ := RaftLog.appendEntry_get happ
  refine .fits log₁ ?_ ?_
  · rw [hlog]
    exact .next rfl happ (.nil log₁)
  · rw [hend, hstate]
    intro i hi hle
    have hi' : 0 < i := hb.symm.trans_lt hi
    have hle' : i ≤ 1 := hle
    obtain rfl : i = 1 := by omega
    exact ⟨⟨1, 1, ⟨.put, "x", some "1"⟩⟩, hheld, rfl⟩

theorem orderly_runs_sound_skipping : ∃ s s', Session.Started s ∧
    s' = s.after ⟨10, 1500⟩ (.appendEntries committedAppend) ∧ s'.Restarts ∧
    (∃ e, (RaftNode.handleAppendEntries ⟨20, 1500⟩ skippingAppend s'.node).result = .error e) ∧
    RaisesClean s'.node s'.disk
      (RaftNode.handleAppendEntries ⟨20, 1500⟩ skippingAppend s'.node) := by
  have hnext : (freshFollower.map fun s =>
      let s' := s.after ⟨10, 1500⟩ (.appendEntries committedAppend)
      (s'.node.state.currentTerm, s'.node.log.get 3, s'.node.log.lastIndex,
        match (RaftNode.handleAppendEntries ⟨20, 1500⟩ skippingAppend s'.node).result with
        | .error _ => true
        | .ok _ => false)) = some (1, none, 1, true) := by
    rfl
  obtain ⟨s, hs, hend⟩ := Option.map_eq_some_iff.mp hnext
  obtain ⟨hterm, hend⟩ := Prod.mk.inj hend
  obtain ⟨hget, hend⟩ := Prod.mk.inj hend
  obtain ⟨hlast, hraise⟩ := Prod.mk.inj hend
  refine ⟨s, _, freshFollower_started hs, rfl, ?_⟩
  obtain ⟨hrestarts, hclean⟩ := orderly_runs_sound (freshFollower_healthy hs)
    (.single ⟨_, _, committedAppend_orderly hs, rfl⟩)
  refine ⟨hrestarts, ?_, hclean ⟨20, 1500⟩ skippingAppend
    (.misfit [] _ [] hterm.symm rfl (.nil _) hget ?_)⟩
  · rcases hresult : (RaftNode.handleAppendEntries ⟨20, 1500⟩ skippingAppend
        (s.after ⟨10, 1500⟩ (.appendEntries committedAppend)).node).result with e | a
    · exact ⟨e, rfl⟩
    · rw [hresult] at hraise
      cases hraise
  · rw [hlast]
    decide

end PyRaftKv
