/-
# Following: AppendEntries and InstallSnapshot

The two stretches that let a leader change a member's log.  Both write several files, so a crash
may leave the log changed and the term and the commit index not; the moves of the abstract peer
allow for that (`Move.replicate`, `Move.installKept`, `Move.installFresh` do not need the peer's
term to be the leader's).

A position of the log is lost only if the request conflicts with it: `Overwrites` and `Replaces`
say when it does.
-/
import PyRaftKv.Refinement.Leading

open Consensus

namespace PyRaftKv

variable {m : Members} {v : NodeId} {n : RaftNode} {d : DataDir} {p : PeerState} {h h' : Hist}

/-! ## 1. The common part of two logs -/

theorem commonPrefixLength_spec : ∀ l m : List LogEntry,
    RaftNode.commonPrefixLength l m ≤ l.length ∧ RaftNode.commonPrefixLength l m ≤ m.length ∧
    l.take (RaftNode.commonPrefixLength l m) = m.take (RaftNode.commonPrefixLength l m) ∧
    ∀ x y, l[RaftNode.commonPrefixLength l m]? = some x →
      m[RaftNode.commonPrefixLength l m]? = some y → x ≠ y
  | [], m => by simp [RaftNode.commonPrefixLength]
  | x :: l, [] => by simp [RaftNode.commonPrefixLength]
  | x :: l, y :: m => by
    obtain ⟨hl, hm, htake, hne⟩ := commonPrefixLength_spec l m
    unfold RaftNode.commonPrefixLength
    split
    · rename_i hxy
      subst hxy
      refine ⟨by simpa using hl, by simpa using hm, by simp [htake], ?_⟩
      simpa using hne
    · rename_i hxy
      refine ⟨Nat.zero_le _, Nat.zero_le _, rfl, ?_⟩
      rintro a b ⟨⟩ ⟨⟩
      exact hxy

/-- What is a prefix of both is no longer than what they have in common. -/
theorem length_le_common {l m q : List LogEntry} (hl : q <+: l) (hm : q <+: m) :
    q.length ≤ RaftNode.commonPrefixLength l m := by
  by_contra hlt
  rw [not_le] at hlt
  obtain ⟨-, -, -, hne⟩ := commonPrefixLength_spec l m
  have hq : q[RaftNode.commonPrefixLength l m]? = some q[RaftNode.commonPrefixLength l m] :=
    List.getElem?_eq_getElem hlt
  exact hne _ _ ((getElem?_of_isPrefix hl hlt).trans hq) ((getElem?_of_isPrefix hm hlt).trans hq)
    rfl

/-- Where one log is not a part of the other, the two differ at a position both have. -/
theorem first_conflict {l m : List LogEntry} {i : Nat} (hi : i < l.length)
    (hl : ¬ l.take (i + 1) <+: m) (hm : ¬ m <+: l) :
    ∃ j ≤ i, ∃ x y, l[j]? = some x ∧ m[j]? = some y ∧ x ≠ y := by
  obtain ⟨hcl, hcm, htake, hne⟩ := commonPrefixLength_spec l m
  generalize RaftNode.commonPrefixLength l m = c at hcl hcm htake hne
  have hci : c ≤ i := by
    by_contra hlt
    refine hl ?_
    have : l.take (i + 1) = (l.take c).take (i + 1) := by
      rw [List.take_take, min_eq_left (by omega)]
    rw [this, htake, List.take_take]
    exact List.take_prefix _ _
  have hcm' : c < m.length := by
    by_contra hge
    refine hm ?_
    rw [← List.take_of_length_le (show m.length ≤ c by omega), ← htake]
    exact List.take_prefix _ _
  exact ⟨c, hci, _, _, List.getElem?_eq_getElem (by omega), List.getElem?_eq_getElem hcm',
    hne _ _ (List.getElem?_eq_getElem (by omega)) (List.getElem?_eq_getElem hcm')⟩

/-! ## 2. The journal follows the log -/

/-- What a part of the journal's records leaves of a change from `l` to `m`. -/
def Between (l m l' : List LogEntry) : Prop :=
  l' = l ∨ ∃ j ≤ m.length, l' = m.take j ∧ ∀ q, q <+: l → q <+: m → q.length ≤ j

/-- A part of the journal's records, that leaves something between two logs. -/
def PartlyWritten (d d' : DataDir) (l l' : List LogEntry) (b : Nat) : Prop :=
  ∃ log'' l'', d'.loadLog = .ok log'' ∧ Shows log'' l'' b ∧ Between l l' l'' ∧
    d'.savedState = d.savedState ∧ d'.loadSnapshot = d.loadSnapshot

/-- The rest of the new log, record by record on top of a part of it that has at least what both
logs have in common. -/
theorem rest_written {log₁ log' : RaftLog} {l l' : List LogEntry} {b j : Nat}
    (hd : d.loadLog = .ok log₁) (hs₁ : Shows log₁ (l'.take j) b) (hs' : Shows log' l' b)
    (hl' : Contiguous 0 l') (hj : j ≤ l'.length) (hlong : ∀ q, q <+: l → q <+: l' → q.length ≤ j) :
    (∀ k ≤ (appendLogEntries (l'.drop j)).length,
        PartlyWritten d (d.writes ((appendLogEntries (l'.drop j)).take k)) l l' b) ∧
      (d.writes (appendLogEntries (l'.drop j))).loadLog = .ok log' ∧
      (d.writes (appendLogEntries (l'.drop j))).savedState = d.savedState ∧
      (d.writes (appendLogEntries (l'.drop j))).loadSnapshot = d.loadSnapshot := by
  have hpart : ∀ k, l'.take j ++ (l'.drop j).take k = l'.take (j + k) :=
    fun k => List.take_add.symm
  constructor
  · intro k hk
    rw [DataDir.length_appendLogEntries, List.length_drop] at hk
    rw [DataDir.take_appendLogEntries]
    obtain ⟨log₂, hd₂, hs₂, hst, hsn⟩ := DataDir.writes_appendLogEntries ((l'.drop j).take k) hd hs₁
      (by rw [hpart]; exact hl'.take _)
    rw [hpart] at hs₂
    exact ⟨log₂, _, hd₂, hs₂, Or.inr ⟨_, by omega, rfl,
      fun q hq hq' => (hlong q hq hq').trans (by omega)⟩, hst, hsn⟩
  · obtain ⟨log₂, hd₂, hs₂, hst, hsn⟩ := DataDir.writes_appendLogEntries (l'.drop j) hd hs₁
      (by rw [List.take_append_drop]; exact hl')
    rw [List.take_append_drop] at hs₂
    exact ⟨hs₂.unique hs' ▸ hd₂, hst, hsn⟩

/-- **`_persist_log_change`**: the journal ends up with the new log, and in between holds the old
log or a part of the new one that has at least what both have in common. -/
theorem persistLogChange_run {log log' : RaftLog} {l l' : List LogEntry} {b : Nat}
    (hd : d.loadLog = .ok log) (hs : Shows log l b) (hs' : Shows log' l' b) (hl : Contiguous 0 l)
    (hl' : Contiguous 0 l') (hb : l.take b = l'.take b) (n : RaftNode) :
    ∃ ws, RaftNode.persistLogChange log.entries log'.entries n =
        ⟨.ok (), n, ws.map fun w => ⟨n, w⟩⟩ ∧
      (∀ k ≤ ws.length, PartlyWritten d (d.writes (ws.take k)) l l' b) ∧
      (d.writes ws).loadLog = .ok log' ∧ (d.writes ws).savedState = d.savedState ∧
      (d.writes ws).loadSnapshot = d.loadSnapshot := by
  unfold RaftNode.persistLogChange
  by_cases hsame : log.entries = log'.entries
  · rw [if_pos hsame]
    have hlog : log = log' :=
      RaftLog.ext (hs.base.trans hs'.base.symm)
        (by rw [hs.baseTerm, hs'.baseTerm, hb]) hsame
    refine ⟨[], rfl, fun k _ => ⟨log, l, ?_, hs, Or.inl rfl, ?_, ?_⟩, hlog ▸ hd, rfl, rfl⟩
    all_goals rw [List.take_nil]
    · exact hd
    · rfl
    · rfl
  rw [if_neg hsame]
  obtain ⟨hcl, hcm, htake, hne⟩ := commonPrefixLength_spec log.entries log'.entries
  have hlong : ∀ q, q <+: l → q <+: l' →
      q.length ≤ b + RaftNode.commonPrefixLength log.entries log'.entries := by
    intro q hq hq'
    have := length_le_common (l := log.entries) (m := log'.entries) (q := q.drop b)
      (by rw [hs.entries]; exact hq.drop b) (by rw [hs'.entries]; exact hq'.drop b)
    rw [List.length_drop] at this
    omega
  generalize RaftNode.commonPrefixLength log.entries log'.entries = c at hcl hcm htake hne hlong
  have hle := hs.le
  have hle' := hs'.le
  rw [hs.entries, List.length_drop] at hcl
  rw [hs'.entries, List.length_drop] at hcm
  -- up to `b + c` the two logs are equal
  have hcut : l.take (b + c) = l'.take (b + c) := by
    rw [hs.entries, hs'.entries] at htake
    rw [List.take_add, List.take_add, hb, htake]
  have hsuffix : log'.entries.drop c = l'.drop (b + c) := by
    rw [hs'.entries, List.drop_drop]
  -- the rest of the new log goes on top of what is equal
  have hbc : b + c ≤ l'.length := by omega
  rw [hsuffix]
  rcases hreplaced : log.entries[c]? with _ | replaced
  · -- the new log goes on where the old one ends
    have hll : l = l'.take (b + c) := by
      rw [hs.entries, List.getElem?_eq_none_iff, List.length_drop] at hreplaced
      rw [← hcut, List.take_of_length_le (by omega)]
    have hs₁ : Shows log (l'.take (b + c)) b := by rwa [← hll]
    exact ⟨appendLogEntries (l'.drop (b + c)), rfl,
      rest_written hd hs₁ hs' hl' hbc hlong⟩
  · -- the old log is cut first
    have hidx : replaced.index = b + c + 1 := by
      rw [hs.entries, List.getElem?_drop] at hreplaced
      have := hl _ _ hreplaced
      push_cast at this
      omega
    obtain ⟨log₁, htrunc, hs₁⟩ := hs.truncateFrom (i := b + c) (by omega)
    have hd₁ : (d.write (.appendLog (.truncate replaced.index))).loadLog = .ok log₁ := by
      refine DataDir.loadLog_append hd ?_
      change log.truncateFrom replaced.index = _
      rw [hidx]
      exact_mod_cast htrunc
    rw [hcut] at hs₁
    have hrun : replaceLogSuffix replaced.index (l'.drop (b + c)) =
        .ok (.appendLog (.truncate replaced.index) :: appendLogEntries (l'.drop (b + c))) := by
      unfold replaceLogSuffix
      rw [if_neg (by omega)]
    obtain ⟨hpart, hend⟩ := rest_written hd₁ hs₁ hs' hl' hbc hlong
    refine ⟨.appendLog (.truncate replaced.index) :: appendLogEntries (l'.drop (b + c)), ?_,
      fun k hk => ?_, hend⟩
    · simp only [hrun, NodeM.bind_run, NodeM.lift_ok_run, NodeM.andThen_ok, NodeM.behind_nil,
        NodeM.persist_run]
    · rcases k with _ | k
      · exact ⟨log, l, hd, hs, Or.inl rfl, rfl, rfl⟩
      · rw [List.take_succ_cons, DataDir.writes_cons]
        exact hpart k (Nat.le_of_succ_le_succ hk)

/-- The records of a change of the log bring the file from the one log to the other. -/
theorem persistLogChange_loads {log log' : RaftLog} {d : DataDir} (hd : d.loadLog = .ok log)
    (hb : log'.baseIndex = log.baseIndex) (hbt : log'.baseTerm = log.baseTerm) (n : RaftNode) :
    ∃ ws, RaftNode.persistLogChange log.entries log'.entries n =
        ⟨.ok (), n, ws.map fun w => ⟨n, w⟩⟩ ∧ (d.writes ws).loadLog = .ok log' ∧
      (d.writes ws).savedState = d.savedState ∧ (d.writes ws).loadSnapshot = d.loadSnapshot := by
  have hpad : log.padded.take log.baseIndex.toNat = log'.padded.take log.baseIndex.toNat := by
    have hpadding : log'.padding = log.padding := by
      unfold RaftLog.padding
      rw [hb, hbt]
    have hpadded' := log'.padded_take
    rw [hb, hpadding] at hpadded'
    rw [log.padded_take, hpadded']
  have hs' : Shows log' log'.padded log.baseIndex.toNat := by
    have := log'.padded_shows
    rwa [hb] at this
  obtain ⟨ws, hrun, -, hlog, hstate, hsnap⟩ := persistLogChange_run hd log.padded_shows hs'
    log.padded_contiguous log'.padded_contiguous hpad n
  exact ⟨ws, hrun, hlog, hstate, hsnap⟩

/-! ## 3. AppendEntries -/

/-- Applying entries leaves the role and the term alone. -/
theorem applyEntries_role (log : RaftLog) : ∀ (k : Nat) (s : RaftState) (store : KVStore),
    (applyEntries log k s store).2.1.role = s.role ∧
      (applyEntries log k s store).2.1.currentTerm = s.currentTerm
  | 0, s, store => ⟨rfl, rfl⟩
  | k + 1, s, store => by
    unfold applyEntries
    simp only
    split
    · exact ⟨rfl, rfl⟩
    · split
      · exact ⟨rfl, rfl⟩
      · exact applyEntries_role log k _ _

theorem updateFollowerCommit_role (s : RaftState) (log : RaftLog) (store : KVStore)
    (leaderCommit : Int) : (updateFollowerCommit s log store leaderCommit).2.1.role = s.role ∧
      (updateFollowerCommit s log store leaderCommit).2.1.currentTerm = s.currentTerm := by
  unfold updateFollowerCommit
  split
  · exact ⟨rfl, rfl⟩
  · exact applyEntries_role log _ _ store

/-- What a leader's window `L` makes of a log: nothing if the log has it all, else the window. -/
def Synced (l L l' : List LogEntry) : Prop := L <+: l ∧ l' = l ∨ ¬ L <+: l ∧ l' = L

theorem Synced.window {l L l' : List LogEntry} (hs : Synced l L l') : L <+: l' := by
  rcases hs with ⟨hp, rfl⟩ | ⟨-, rfl⟩
  · exact hp
  · exact List.prefix_refl _

/-- **Taking a window over.**  A request whose previous entry the log has is accepted: the log
becomes the window or already reaches through it, and what is committed is applied. -/
theorem handleAppendEntries_takes {log : RaftLog} {l W : List LogEntry} {b prev a c : Nat}
    (state : RaftState) (store : KVStore) (r : AppendEntriesRequest) (hs : Shows log l b)
    (hW : Whole W) (hge : state.currentTerm ≤ r.term) (hprev : r.prevLogIndex = prev)
    (hterm : r.prevLogTerm = lastStamp (W.take prev)) (hentries : r.entries = W.drop prev)
    (hleader : r.leaderCommit = c) (hcW : c ≤ W.length) (hb : b ≤ prev) (hpl : prev ≤ l.length)
    (hpW : prev ≤ W.length) (heq : l.take prev = W.take prev)
    (hmatch : ∀ (i : Nat) (x y : LogEntry), l[i]? = some x → W[i]? = some y → x.term = y.term →
      x = y)
    (ha : state.commitIndex = a) (happlied : state.lastApplied = a) (hba : b ≤ a)
    (hal : a ≤ l.length) (hkeep : ∀ l', Synced l W l' → l.take a <+: l')
    (hstore : Replays (l.take a) store) :
    ∃ log' l' store', PyRaftKv.handleAppendEntries state log r store =
      (.ok ⟨r.term, true⟩, { state.follow r.term (some r.leaderId) with
        commitIndex := (max a c : Nat), lastApplied := (max a c : Nat) }, log', store') ∧
      Shows log' l' b ∧ Synced l W l' ∧ Replays (l'.take (max a c)) store' := by
  obtain ⟨log', l', hsync, hs', hl'⟩ := hs.syncEntries hW _ prev rfl hb hpl hpW heq hmatch
  have hsynced : Synced l W l' := hl'
  have hcommit := hkeep l' hsynced
  have hsame : l'.take a = l.take a := by
    rw [← prefix_eq_take hcommit, List.length_take_of_le hal]
  have hstore' : Replays (l'.take a) store := hsame ▸ hstore
  have hcl' : c ≤ l'.length := hcW.trans hsynced.window.length_le
  unfold PyRaftKv.handleAppendEntries
  rw [if_neg (not_lt.mpr hge), RaftState.becomeFollower_ok _ hge]
  simp only [RaftState.follow_currentTerm]
  rw [hprev, hterm, hs.lastIndex, if_neg (by omega), hs.termAt hb hpl, heq,
    if_neg (not_not.mpr rfl), hentries, hsync]
  simp only
  unfold updateFollowerCommit
  rw [hleader]
  have hfc : (state.follow r.term (some r.leaderId)).commitIndex = a := ha
  have hfa : (state.follow r.term (some r.leaderId)).lastApplied = a := happlied
  by_cases hle : (c : Int) ≤ a
  · -- nothing new is committed
    rw [if_pos (by rw [hfc]; exact hle), max_eq_left (by omega)]
    refine ⟨log', l', store, ?_, hs', hsynced, hstore'⟩
    have hfollow : state.follow r.term (some r.leaderId) =
        { state.follow r.term (some r.leaderId) with
          commitIndex := (a : Int), lastApplied := (a : Int) } :=
      RaftState.ext rfl hfc rfl rfl rfl rfl hfa
    exact congrArg (fun s : RaftState => ((Except.ok ⟨r.term, true⟩ :
      Except RaftError AppendEntriesResponse), s, log', store)) hfollow
  · rw [if_neg (by rw [hfc]; exact hle), max_eq_right (by omega)]
    have hvalid : ∀ e ∈ l'.take c, RaftNode.validateCommand e.command = .ok () := by
      rw [take_eq_of_isPrefix hsynced.window hcW]
      exact fun e he => hW.valid e (List.take_subset _ _ he)
    obtain ⟨store', happ, hrep⟩ := applyCommittedEntries_valid (c := c)
      { state.follow r.term (some r.leaderId) with commitIndex := min (c : Int) log'.lastIndex }
      store hs' hvalid hfa (by rw [hs'.lastIndex]; exact min_eq_left (by omega)) hba (by omega)
      hcl' hstore'
    refine ⟨log', l', store', ?_, hs', hsynced, hrep⟩
    rw [happ]
    simp only [RaftState.follow_currentTerm]
    rw [hs'.lastIndex, min_eq_left (by omega)]

/-- **`handle_append_entries` of `raft/replication.py`**: it refuses an older term, refuses a
previous entry it does not have, or takes the window over and applies what is committed. -/
theorem handleAppendEntries_cases (hl : Live m v n d p h) {r : AppendEntriesRequest}
    {prev last commit : Nat} (hr : AppendsAt h r prev last commit) :
    (r.term < n.state.currentTerm ∧ PyRaftKv.handleAppendEntries n.state n.log r n.store =
      (.ok ⟨n.state.currentTerm, false⟩, n.state, n.log, n.store)) ∨
    (n.state.currentTerm ≤ r.term ∧
      ¬ (p.base ≤ prev ∧ prev ≤ p.log.length ∧
        p.log.take prev = (h.leaderLog r.term).take prev) ∧
      PyRaftKv.handleAppendEntries n.state n.log r n.store =
        (.ok ⟨r.term, false⟩, n.state.follow r.term (some r.leaderId), n.log, n.store)) ∨
    (n.state.currentTerm ≤ r.term ∧ p.base ≤ prev ∧ prev ≤ p.log.length ∧
      p.log.take prev = (h.leaderLog r.term).take prev ∧
      ∃ log' l' store', PyRaftKv.handleAppendEntries n.state n.log r n.store =
        (.ok ⟨r.term, true⟩, { n.state.follow r.term (some r.leaderId) with
          commitIndex := (max p.commit commit : Nat)
          lastApplied := (max p.commit commit : Nat) }, log', store') ∧
        Shows log' l' p.base ∧ Synced p.log ((h.leaderLog r.term).take last) l' ∧
        p.log.take p.commit <+: l' ∧ Replays (l'.take (max p.commit commit)) store') := by
  have hm := hl.mirrors
  have hLt := hl.history.leader_traced r.term
  have hlast := hr.last_le
  have hprev := hr.prev_le
  unfold PyRaftKv.handleAppendEntries
  by_cases hold : r.term < n.state.currentTerm
  · rw [if_pos hold]
    exact Or.inl ⟨hold, rfl⟩
  right
  have hge : n.state.currentTerm ≤ r.term := not_lt.mp hold
  rw [if_neg hold, RaftState.becomeFollower_ok _ hge]
  simp only [RaftState.follow_currentTerm]
  rw [hr.prevIndex, hr.prevTerm, hm.log.lastIndex]
  by_cases hlong : (prev : Int) > p.log.length
  · rw [if_pos hlong]
    exact Or.inl ⟨hge, fun hh => by omega, rfl⟩
  rw [if_neg hlong]
  by_cases hterm : n.log.termAt prev = some (lastStamp ((h.leaderLog r.term).take prev))
  swap
  · rw [if_pos hterm]
    refine Or.inl ⟨hge, fun hh => hterm ?_, rfl⟩
    rw [hm.log.termAt hh.1 hh.2.1, hh.2.2]
  rw [if_neg (not_not.mpr hterm)]
  right
  obtain ⟨i, hi, hbase, hpl, hstamp⟩ := hm.log.termAt_eq_some.mp hterm
  obtain rfl : prev = i := by omega
  have heq : p.log.take prev = (h.leaderLog r.term).take prev :=
    hl.peer.traced.take_eq hLt hpl (hprev.trans hlast) hstamp.symm
  refine ⟨hge, hbase, hpl, heq, ?_⟩
  -- the log takes the window over
  have hWt := hLt.take last
  have hWw := (hl.whole r.term).of_isPrefix (List.take_prefix last _)
  have hWlen : ((h.leaderLog r.term).take last).length = last := List.length_take_of_le hlast
  have hWprev : ((h.leaderLog r.term).take last).take prev = (h.leaderLog r.term).take prev := by
    rw [List.take_take, min_eq_left hprev]
  have hkeep : ∀ l', Synced p.log ((h.leaderLog r.term).take last) l' →
      ∀ q, q <+: p.log → q <+: h.leaderLog r.term → q <+: l' := by
    intro l' hl' q hq hqL
    rcases hl' with ⟨-, rfl⟩ | ⟨hnot, rfl⟩
    · exact hq
    · rcases Nat.le_total q.length last with hle | hle
      · exact List.prefix_of_prefix_length_le hqL (List.take_prefix _ _) (by omega)
      · refine absurd (List.IsPrefix.trans ?_ hq) hnot
        exact List.prefix_of_prefix_length_le (List.take_prefix _ _) hqL (by omega)
  have hbaseL : p.log.take p.base <+: h.leaderLog r.term := by
    have : p.log.take p.base = (p.log.take prev).take p.base := by
      rw [List.take_take, min_eq_left hbase]
    rw [this, heq]
    exact (List.take_prefix _ _).trans (List.take_prefix _ _)
  have hcommit : ∀ l', Synced p.log ((h.leaderLog r.term).take last) l' →
      p.log.take p.commit <+: l' := fun l' hl' =>
    hl.peer.commit_kept hl.history (hm.term ▸ hge) hr.elected (hkeep l' hl')
      (hkeep l' hl' _ (List.take_prefix _ _) hbaseL)
  obtain ⟨log', l', store', hrun, hs', hsynced, hrep⟩ := handleAppendEntries_takes
    n.state n.store r (c := commit) hm.log hWw hge hr.prevIndex
    (by rw [hWprev]; exact hr.prevTerm) hr.entries
    hr.leaderCommit (by rw [hWlen]; exact hr.commit_le)
    hbase hpl (by rw [hWlen]; exact hprev) (by rw [heq, hWprev])
    (fun i x y hx hy hxy => by
      have := hl.peer.traced.matching hWt hx hy hxy
      have hx' : (p.log.take (i + 1))[i]? = some x := by
        rw [List.getElem?_take, if_pos (by omega), hx]
      rw [this, List.getElem?_take, if_pos (by omega), hy] at hx'
      exact (Option.some.inj hx').symm)
    hm.commit hm.applied hl.peer.base_le hl.peer.commit_le hcommit hm.store
  have hrun' := hrun
  unfold PyRaftKv.handleAppendEntries at hrun'
  rw [if_neg hold, RaftState.becomeFollower_ok _ hge] at hrun'
  simp only [RaftState.follow_currentTerm] at hrun'
  rw [hr.prevIndex, hr.prevTerm, hm.log.lastIndex, if_neg hlong, if_neg (not_not.mpr hterm)]
    at hrun'
  exact ⟨log', l', store', hrun', hs', hsynced, hcommit l' hsynced, hrep⟩

/-- The request conflicts with the log at or below position `i`, and above its boundary. -/
def Overwrites (r : AppendEntriesRequest) (p : PeerState) (i : Nat) : Prop :=
  ∃ j ≤ i, p.base ≤ j ∧
    ∃ x y, p.log[j]? = some x ∧ y ∈ r.entries ∧ y.index = x.index ∧ x.term ≠ y.term

/-- The member has the entry before the request's window: it does not refuse the request. -/
def FollowsOn (r : AppendEntriesRequest) (p : PeerState) : Prop :=
  ∃ prev : Nat, r.prevLogIndex = prev ∧ p.base ≤ prev ∧ prev ≤ p.log.length ∧
    r.prevLogTerm = lastStamp (p.log.take prev)

/-- A leader's part of the log that has all that both logs share. -/
theorem between_keeps {l L l' : List LogEntry} {last : Nat}
    (hl' : Between l (L.take last) l') (hnot : ¬ L.take last <+: l) :
    (∀ q, q <+: l → q <+: L → q <+: l') ∧ (l' <+: l ∨ l' <+: L) := by
  rcases hl' with rfl | ⟨j, hj, rfl, hlong⟩
  · exact ⟨fun q hq _ => hq, Or.inl (List.prefix_refl _)⟩
  · refine ⟨fun q hq hqL => ?_, Or.inr ((List.take_prefix _ _).trans (List.take_prefix _ _))⟩
    have hqW : q <+: L.take last := by
      rcases Nat.le_total q.length last with hle | hle
      · rw [← prefix_eq_take hqL]
        exact List.take_prefix_take_left hle
      · refine absurd (List.IsPrefix.trans ?_ hq) hnot
        refine List.prefix_of_prefix_length_le (List.take_prefix _ _) hqL ?_
        exact (List.length_take_le _ _).trans hle
    have := hlong q hq hqW
    rw [← prefix_eq_take hqW]
    exact List.take_prefix_take_left this

/-- A position is lost on the way to the leader's window only where that conflicts. -/
theorem between_lost (hl : Live m v n d p h) {r : AppendEntriesRequest} {prev last commit : Nat}
    (hr : AppendsAt h r prev last commit) (hbase : p.base ≤ prev)
    (heq : p.log.take prev = (h.leaderLog r.term).take prev)
    (hnot : ¬ (h.leaderLog r.term).take last <+: p.log) {l' : List LogEntry}
    (hl' : Between p.log ((h.leaderLog r.term).take last) l') :
    Keeps (fun i => Overwrites r p i) p.log l' := by
  intro i e he
  have hi : i < p.log.length := (List.getElem?_eq_some_iff.mp he).1
  rcases hl' with rfl | ⟨j, hj, rfl, hlong⟩
  · exact Or.inl he
  by_cases hpre : p.log.take (i + 1) <+: (h.leaderLog r.term).take last
  · left
    have hlen := hlong _ (List.take_prefix _ _) hpre
    rw [List.length_take] at hlen
    rw [List.getElem?_take, if_pos (by omega), getElem?_of_isPrefix hpre (by
      rw [List.length_take]; omega), List.getElem?_take, if_pos (by omega), he]
  · right
    obtain ⟨k, hki, x, y, hx, hy, hne⟩ := first_conflict hi hpre hnot
    have hWt := (hl.history.leader_traced r.term).take last
    have hk : prev ≤ k := by
      by_contra hlt
      refine hne ?_
      have hx' : (p.log.take prev)[k]? = some x := by
        rw [List.getElem?_take, if_pos (by omega), hx]
      rw [heq, List.getElem?_take, if_pos (by omega)] at hx'
      have hprev := hr.prev_le
      rw [List.getElem?_take, if_pos (by omega), hx'] at hy
      exact Option.some.inj hy
    refine ⟨k, hki, hbase.trans hk, x, y, hx, ?_, ?_, fun hterm => hne ?_⟩
    · rw [hr.entries]
      refine List.mem_of_getElem? (i := k - prev) ?_
      rw [List.getElem?_drop, show prev + (k - prev) = k by omega, hy]
    · rw [hl.log_whole.index hx, ((hl.whole r.term).of_isPrefix (List.take_prefix _ _)).index hy]
    · have hmatch := hl.peer.traced.matching hWt hx hy hterm
      have hx' : (p.log.take (k + 1))[k]? = some x := by
        rw [List.getElem?_take, if_pos (by omega), hx]
      rw [hmatch, List.getElem?_take, if_pos (by omega), hy] at hx'
      exact (Option.some.inj hx').symm

/-- The node after `handle_append_entries` has taken over the state, the log and the store. -/
theorem Up.received (hu : Up m v n d p h) {s : RaftState} {log' : RaftLog} {l' : List LogEntry}
    {store' : KVStore} {d' : DataDir} {k : Nat} (hid : s.nodeId = n.state.nodeId)
    (hrole : s.role = .follower) (hk : s.commitIndex = k ∧ s.lastApplied = k)
    (hs' : Shows log' l' p.base) (hstore : Replays (l'.take k) store')
    (hbase : l'.take p.base = p.log.take p.base) (hst : d'.savedState = s.persisted)
    (hsn : d'.loadSnapshot = d.loadSnapshot) (hlog : d'.loadLog = .ok log') :
    Up m v { n with state := s, log := log', store := store', replication := none } d'
      { p with
        term := s.currentTerm, vote := s.votedFor, role := .follower, log := l', commit := k }
      h' where
  id := hu.id
  stateId := hid.trans hu.stateId
  members := hu.members
  member := hu.member
  mirrors := {
    term := rfl
    vote := rfl
    role := by
      change Role.follower = s.role.role
      rw [hrole]
      rfl
    commit := hk.1
    applied := hk.2
    log := hs'
    store := hstore
    snapshot := by
      refine ⟨hu.mirrors.snapshot.index, ?_, ?_⟩
      · exact (congrArg lastStamp hbase).symm ▸ hu.mirrors.snapshot.term
      · exact hbase.symm ▸ hu.mirrors.snapshot.state }
  saved := ⟨hst, hsn.trans hu.saved.snapshot, hlog⟩
  votes hr := by simp [hrole] at hr
  table r hr := by cases hr

/-- A crash on the way from one log to the next: the state file is still the old one. -/
theorem Live.crashed_log (hl : Live m v n d p h) {t : Int} {l' : List LogEntry} {log' : RaftLog}
    {d' : DataDir} {lost : Nat → Prop} (ht : p.term ≤ t) (hel : h.Elected t)
    (hkeep : ∀ q, q <+: p.log → q <+: h.leaderLog t → q <+: l')
    (hfrom : l' <+: p.log ∨ l' <+: h.leaderLog t) (hbase : p.log.take p.base <+: l')
    (hkept : Keeps lost p.log l') (hd' : d'.loadLog = .ok log') (hs' : Shows log' l' p.base)
    (hst : d'.savedState = d.savedState) (hsn : d'.loadSnapshot = d.loadSnapshot) :
    Crashed m v h p lost d' h { p with log := l', role := .follower } := by
  have hdisk := hl.onDisk
  have hsame : l'.take p.base = p.log.take p.base := by
    rw [← prefix_eq_take hbase, List.length_take_of_le hl.mirrors.log.le]
  obtain ⟨log'', hinst, hs''⟩ := hs'.install_kept le_rfl hs'.le
  refine ⟨(Move.replicate t l' ht hel hkeep hfrom hbase).moves, hl.whole, rfl, .of_eq rfl, hkept,
    ?_, ?_, ?_,
    ⟨?_, ?_, ?_⟩, log', log'', hd', hs'.base.le, hinst, hs''⟩
  · rw [hst]
    exact hdisk.term
  · rw [hst]
    exact hdisk.vote
  · rw [hst]
    exact hdisk.commit
  · rw [hsn]
    exact hdisk.snapshot.index
  · rw [hsn]
    exact hdisk.snapshot.term.trans (congrArg lastStamp hsame.symm)
  · rw [hsn]
    exact hsame.symm ▸ hdisk.snapshot.state

/-- The state file after the state record is saved, or left out because it is the same. -/
theorem savedState_changed {s old : RaftState} {ws : List Write}
    (hws : ws = saveState s ∨ ws = [] ∧ s.persisted = old.persisted)
    (hd : d.savedState = old.persisted) :
    (d.writes ws).savedState = s.persisted ∧ (d.writes ws).loadLog = d.loadLog ∧
      (d.writes ws).loadSnapshot = d.loadSnapshot ∧ ws.length ≤ 1 := by
  rcases hws with rfl | ⟨rfl, hsame⟩
  · exact ⟨rfl, rfl, rfl, le_rfl⟩
  · exact ⟨hd.trans hsame.symm, rfl, rfl, Nat.zero_le _⟩

theorem persistTerm_run (n : RaftNode) (previousTerm : Int) :
    RaftNode.persistTerm previousTerm n = ⟨.ok (), n,
      (if n.state.currentTerm ≠ previousTerm then saveState n.state else []).map
        fun w => ⟨n, w⟩⟩ := by
  simp only [RaftNode.persistTerm, RaftNode.persistState, NodeM.bind_run, NodeM.get_run,
    NodeM.andThen_ok, NodeM.behind_nil, NodeM.ite_run, NodeM.persist_run, NodeM.pure_run]
  by_cases ht : n.state.currentTerm ≠ previousTerm
  · rw [if_pos ht, if_pos ht]
  · rw [if_neg ht, if_neg ht]
    rfl

/-- Following a term and nothing else, with the state record saved if it is another one. -/
theorem follow_lawful (lost : Nat → Prop) (hl : Live m v n d p h) {term : Int}
    (ht : n.state.currentTerm ≤ term) (leaderId : Option NodeId) {ws : List Write}
    (hws : ws = saveState (n.state.follow term leaderId) ∨
      ws = [] ∧ (n.state.follow term leaderId).persisted = n.state.persisted) :
    Lawful m v h p d lost { n with state := n.state.follow term leaderId, replication := none } ws h
      (withState p (n.state.follow term leaderId)) := by
  obtain ⟨hst, hlog, hsn, hlen⟩ := savedState_changed hws hl.saved.state
  have hsaved : Saved (d.writes ws) { n with state := n.state.follow term leaderId } :=
    ⟨hst, hsn.trans hl.saved.snapshot, hlog.trans hl.saved.log⟩
  exact .of_single hl hlen (follow_moves hl.mirrors ht _) hl.whole (Or.inl rfl) (.of_eq rfl)
    (Keeps.refl _ _) ((hl.toUp.setState h hsaved rfl rfl rfl subset_rfl n.election
      (fun hr => nomatch hr)
      (fun hr => nomatch hr)).setReplication none (by simp))

theorem dropReplication_eq (hn : n.state.role = .follower) :
    n.dropReplication = { n with replication := none } := by
  unfold RaftNode.dropReplication
  rw [if_pos (by simp [hn])]

/-- A refusal only takes the term over, and saves it if it is another one. -/
theorem handleAppendEntries_refused {r : AppendEntriesRequest} {s : RaftState} {term : Int}
    (clock : Clock) (hrole : s.role = .follower)
    (hrun : PyRaftKv.handleAppendEntries n.state n.log r n.store =
      (.ok ⟨term, false⟩, s, n.log, n.store)) :
    RaftNode.handleAppendEntries clock r n = ⟨.ok ⟨term, false⟩,
      { n with state := s, replication := none },
      (if s.persisted ≠ n.state.persisted then saveState s else []).map
        fun w => ⟨{ n with state := s }, w⟩⟩ := by
  have hdrop : ({ n with state := s } : RaftNode).dropReplication =
      { n with state := s, replication := none } := dropReplication_eq hrole
  simp only [RaftNode.handleAppendEntries, NodeM.bind_run, NodeM.get_run, NodeM.andThen_ok,
    NodeM.behind_nil, NodeM.modify_run, hrun, NodeM.lift_ok_run, RaftNode.persistLogChange,
    if_true, NodeM.pure_run, Bool.false_eq_true, if_false, RaftNode.persistState,
    NodeM.persist_run, NodeM.ite_run, hdrop]
  by_cases hsave : s.persisted ≠ n.state.persisted
  · rw [if_pos hsave, if_pos hsave]
    rfl
  · rw [if_neg hsave, if_neg hsave]
    rfl

/-- An acceptance saves what has changed in the log, and the state record if it is another one. -/
theorem handleAppendEntries_saved {r : AppendEntriesRequest} {s : RaftState} {log' : RaftLog}
    {store' : KVStore} {term : Int} {ws : List Write} (clock : Clock) (hrole : s.role = .follower)
    (hrun : PyRaftKv.handleAppendEntries n.state n.log r n.store =
      (.ok ⟨term, true⟩, s, log', store'))
    (hpersist : RaftNode.persistLogChange n.log.entries log'.entries
      { n with state := s, log := log', store := store' } =
        ⟨.ok (), { n with state := s, log := log', store := store' },
          ws.map fun w => ⟨{ n with state := s, log := log', store := store' }, w⟩⟩) :
    RaftNode.handleAppendEntries clock r n = ⟨.ok ⟨term, true⟩,
      { n with
        state := s, log := log', store := store', replication := none
        timer := .reset clock.now clock.timeout },
      (ws ++ if s.persisted ≠ n.state.persisted then saveState s else []).map
        fun w => ⟨{ n with state := s, log := log', store := store' }, w⟩⟩ := by
  have hdrop : ∀ timer, ({ n with state := s, log := log', store := store', timer } :
      RaftNode).dropReplication = { n with
        state := s, log := log', store := store', timer, replication := none } :=
    fun timer => dropReplication_eq hrole
  simp only [RaftNode.handleAppendEntries, NodeM.bind_run, NodeM.get_run, NodeM.andThen_ok,
    NodeM.behind_nil, NodeM.modify_run, hrun, NodeM.lift_ok_run, hpersist, NodeM.pure_run, if_true,
    RaftNode.persistState, NodeM.persist_run, NodeM.ite_run, hdrop]
  by_cases hsave : s.persisted ≠ n.state.persisted
  · rw [if_pos hsave, if_pos hsave]
    simp only [NodeM.behind_mk, List.map_append, List.append_nil]
  · rw [if_neg hsave, if_neg hsave]
    simp only [NodeM.behind_mk, List.append_nil]

/-- A state record that is saved, or left out because it is the same. -/
theorem saved_or_same (s old : RaftState) :
    (if s.persisted ≠ old.persisted then saveState s else []) = saveState s ∨
      (if s.persisted ≠ old.persisted then saveState s else []) = [] ∧
        s.persisted = old.persisted := by
  split
  · exact Or.inl rfl
  · rename_i hsame
    exact Or.inr ⟨rfl, not_not.mp hsame⟩

section Window

variable {r : AppendEntriesRequest} {prev last commit : Nat} {l' : List LogEntry}

/-- A log on the way to the one that has taken the window over keeps what both logs share, and loses
what is in conflict only. -/
theorem between_synced (hl : Live m v n d p h) (hr : AppendsAt h r prev last commit)
    (hbase : p.base ≤ prev) (heq : p.log.take prev = (h.leaderLog r.term).take prev)
    (hsync : Synced p.log ((h.leaderLog r.term).take last) l') {l'' : List LogEntry}
    (hl'' : Between p.log l' l'') :
    (∀ q, q <+: p.log → q <+: h.leaderLog r.term → q <+: l'') ∧
      (l'' <+: p.log ∨ l'' <+: h.leaderLog r.term) ∧
      Keeps (fun i => Overwrites r p i) p.log l'' := by
  rcases hsync with ⟨-, rfl⟩ | ⟨hnot, rfl⟩
  · have hsame : l'' = p.log := by
      rcases hl'' with hl'' | ⟨j, -, hl'', hlong⟩
      · exact hl''
      · rw [hl'', List.take_of_length_le (hlong _ (List.prefix_refl _) (List.prefix_refl _))]
    rw [hsame]
    exact ⟨fun q hq _ => hq, Or.inl (List.prefix_refl _), Keeps.refl _ _⟩
  · obtain ⟨hkeep, hfrom⟩ := between_keeps hl'' hnot
    exact ⟨hkeep, hfrom, between_lost hl hr hbase heq hnot hl''⟩

/-- **The moves of an accepted window**: follow, take over, acknowledge, learn. -/
theorem window_moves (hl : Live m v n d p h) (hr : AppendsAt h r prev last commit)
    (hge : n.state.currentTerm ≤ r.term)
    (hkeep : ∀ q, q <+: p.log → q <+: h.leaderLog r.term → q <+: l')
    (hfrom : l' <+: p.log ∨ l' <+: h.leaderLog r.term) (hbl' : p.log.take p.base <+: l')
    (hsync : Synced p.log ((h.leaderLog r.term).take last) l') :
    Moves m.quorums v h p { h with acks := h.acks ∪ {a | ∃ j ≤ last, a = (v, r.term, j)} } { p with
      term := r.term, vote := (n.state.follow r.term (some r.leaderId)).votedFor
      role := .follower, log := l', commit := max p.commit commit } := by
  have hfollow : Moves m.quorums v h p h (withState p (n.state.follow r.term (some r.leaderId))) :=
    follow_moves hl.mirrors hge (some r.leaderId)
  have htaken := hfollow.tail (Move.replicate r.term l' le_rfl hr.elected hkeep hfrom hbl')
  have hacked := htaken.tail (Move.ack last hr.elected hr.last_le hsync.window)
  rcases Nat.le_total commit p.commit with hle | hle
  · rw [max_eq_left hle]
    exact hacked
  · rw [max_eq_right hle]
    have hll : last ≤ l'.length := by
      have := hsync.window.length_le
      rwa [List.length_take_of_le hr.last_le] at this
    refine hacked.tail (Move.learn commit rfl (hr.commit_le.trans hll) hle ?_)
    have htake : l'.take commit = (h.leaderLog r.term).take commit := by
      rw [take_eq_of_isPrefix hsync.window (k := commit)
        (by rw [List.length_take_of_le hr.last_le]; exact hr.commit_le), List.take_take,
        min_eq_left hr.commit_le]
    change History.DecidedBy _ r.term (l'.take commit)
    rw [htake]
    exact hr.decided

/-- **An accepted window is lawful.**  A crash leaves a log on the way and the old state file. -/
theorem window_lawful (hl : Live m v n d p h) (hr : AppendsAt h r prev last commit)
    (hge : n.state.currentTerm ≤ r.term) (hbase : p.base ≤ prev)
    (heq : p.log.take prev = (h.leaderLog r.term).take prev) {s : RaftState}
    (hstate : s = { n.state.follow r.term (some r.leaderId) with
      commitIndex := (max p.commit commit : Nat)
      lastApplied := (max p.commit commit : Nat) }) {log' : RaftLog}
    {store' : KVStore} (hs' : Shows log' l' p.base)
    (hsync : Synced p.log ((h.leaderLog r.term).take last) l')
    (hrep : Replays (l'.take (max p.commit commit)) store') (timer : ElectionTimer) :
    ∃ ws, RaftNode.persistLogChange n.log.entries log'.entries
        { n with state := s, log := log', store := store' } =
          ⟨.ok (), { n with state := s, log := log', store := store' },
            ws.map fun w => ⟨{ n with state := s, log := log', store := store' }, w⟩⟩ ∧
      ∀ ws₂, ws₂ = saveState s ∨ ws₂ = [] ∧ s.persisted = n.state.persisted →
        Lawful m v h p d (fun i => p.term ≤ r.term ∧ Overwrites r p i)
          { n with state := s, log := log', store := store', timer, replication := none }
          (ws ++ ws₂) { h with acks := h.acks ∪ {a | ∃ j ≤ last, a = (v, r.term, j)} } { p with
            term := s.currentTerm, vote := s.votedFor, role := .follower, log := l'
            commit := max p.commit commit } := by
  have hm := hl.mirrors
  have hpr : p.term ≤ r.term := hm.term ▸ hge
  have hw' : Whole l' := by
    rcases hsync with ⟨-, rfl⟩ | ⟨-, rfl⟩
    · exact hl.log_whole
    · exact (hl.whole _).of_isPrefix (List.take_prefix _ _)
  have hpb : p.log.take p.base <+: h.leaderLog r.term := by
    have : p.log.take p.base = (p.log.take prev).take p.base := by
      rw [List.take_take, min_eq_left hbase]
    rw [this, heq]
    exact (List.take_prefix _ _).trans (List.take_prefix _ _)
  obtain ⟨hkeep, hfrom, hkept⟩ := between_synced hl hr hbase heq hsync
    (Or.inr ⟨l'.length, le_rfl, List.take_length.symm, fun q _ hq => hq.length_le⟩)
  have hbl' := hkeep _ (List.take_prefix _ _) hpb
  have hsame : l'.take p.base = p.log.take p.base := by
    rw [← prefix_eq_take hbl', List.length_take_of_le hm.log.le]
  obtain ⟨ws, hpersist, hpart, hd₁, hst₁, hsn₁⟩ := persistLogChange_run hl.saved.log hm.log hs'
    hl.log_whole.contiguous hw'.contiguous hsame.symm
      { n with state := s, log := log', store := store' }
  refine ⟨ws, hpersist, fun ws₂ hws => ?_⟩
  obtain ⟨hst, hlog, hsn, hlen⟩ := savedState_changed hws (hst₁.trans hl.saved.state)
  have hmoves := window_moves hl hr hge hkeep hfrom hbl' hsync
  refine ⟨?_, hl.whole, Or.inl rfl, .of_eq rfl,
    fun i e he => (hkept i e he).imp id fun ho => ⟨hpr, ho⟩, ?_, fun j hj => ?_⟩
  · rw [hstate]
    exact hmoves
  · rw [DataDir.writes_append]
    exact (hl.toUp.received (s := s) (by rw [hstate]; rfl) (by rw [hstate]; rfl)
      (by rw [hstate]; exact ⟨rfl, rfl⟩) hs' hrep hsame hst (hsn.trans hsn₁)
      (hlog.trans hd₁)).setTimer timer
  · -- a crash before the state record
    rw [List.length_append] at hj
    rw [List.take_append_of_le_length (by omega)]
    obtain ⟨log'', l'', hd'', hs'', hbet, hst'', hsn''⟩ := hpart j (by omega)
    obtain ⟨hkeep'', hfrom'', hkept''⟩ := between_synced hl hr hbase heq hsync hbet
    exact ⟨h, _, hl.crashed_log hpr hr.elected hkeep'' hfrom''
      (hkeep'' _ (List.take_prefix _ _) hpb)
      (fun i e he => (hkept'' i e he).imp id fun ho => ⟨hpr, ho⟩) hd'' hs'' hst'' hsn'', rfl⟩

end Window

/-- **`handle_append_entries`**: the peer follows the leader's term, takes its window over,
acknowledges it and learns what is decided.  What a crash leaves is the log on its way there. -/
theorem handleAppendEntries_lawful (hl : Live m v n d p h) {r : AppendEntriesRequest}
    (hr : Appends h r) (clock : Clock) :
    ∃ a n' ws h' p', RaftNode.handleAppendEntries clock r n = ⟨.ok a, n', ws⟩ ∧
      Lawful m v h p d (fun i => p.term ≤ r.term ∧ FollowsOn r p ∧ Overwrites r p i) n'
        (ws.map (·.write)) h' p' ∧
      h'.decisions = h.decisions ∧ a.term = p'.term ∧
      (a.success = true → a.term = r.term ∧ ∃ k : Nat, r.lastReplicated = k ∧
        (v, r.term, k) ∈ h'.acks ∧ h'.Holds r.term k p'.log) := by
  obtain ⟨prev, last, commit, hr⟩ := hr
  have hm := hl.mirrors
  rcases handleAppendEntries_cases hl hr with ⟨hold, hrun⟩ | ⟨hge, -, hrun⟩ |
    ⟨hge, hbase, hpl, heq, log', l', store', hrun, hs', hsync, hcommit, hrep⟩
  · -- an older term
    simp only [RaftNode.handleAppendEntries, NodeM.bind_run, NodeM.get_run, NodeM.andThen_ok,
      NodeM.behind_nil, NodeM.modify_run]
    rw [hrun]
    simp only [NodeM.lift_ok_run, NodeM.andThen_ok, NodeM.behind_nil, RaftNode.persistLogChange,
      if_true, ne_eq, not_true_eq_false, if_false, Bool.false_eq_true]
    exact ⟨_, _, [], h, p, rfl, .quiet hl hl.toUp.dropReplication, rfl, hm.term.symm, by simp⟩
  · -- a previous entry that is not there: only the term is taken over
    refine ⟨_, _, _, h, withState p (n.state.follow r.term (some r.leaderId)),
      handleAppendEntries_refused clock rfl hrun, ?_, rfl, rfl, by simp⟩
    rw [NodeM.writes_of_persist]
    exact follow_lawful _ hl hge (some r.leaderId) (saved_or_same _ _)
  · -- the window is taken over
    obtain ⟨ws, hpersist, hlaw⟩ := window_lawful hl hr hge hbase heq rfl hs' hsync hrep
      (.reset clock.now clock.timeout)
    have hlawful := hlaw _ (saved_or_same _ n.state)
    rw [← NodeM.writes_of_persist { n with
      state := _, log := log', store := store' } (ws ++ _)] at hlawful
    have hfollows : FollowsOn r p := ⟨prev, hr.prevIndex, hbase, hpl, by rw [heq, hr.prevTerm]⟩
    exact ⟨_, _, _, _, _, handleAppendEntries_saved clock rfl hrun hpersist,
      hlawful.mono fun _ hi => ⟨hi.1, hfollows, hi.2⟩, rfl, rfl,
      fun _ => ⟨rfl, last, hr.lastReplicated (hl.whole _), Or.inr ⟨last, le_rfl, rfl⟩,
        hsync.window⟩⟩

/-! ## 4. InstallSnapshot -/

/-- The snapshot takes position `i` of the log `l` away: it lies above a boundary the log does not
have, or below it, where the leader has another entry. -/
def Replaces (h : Hist) (r : InstallSnapshotRequest) (p : PeerState) (i : Nat) : Prop :=
  p.base ≤ r.lastIncludedIndex ∧
    ((r.lastIncludedIndex ≤ i ∧
        lastStamp (p.log.take r.lastIncludedIndex.toNat) ≠ r.lastIncludedTerm) ∨
      (i < r.lastIncludedIndex ∧ (h.leaderLog r.term)[i]? ≠ p.log[i]?))

/-- The member does not refuse the snapshot: what it has committed beyond the boundary goes on from
the boundary. -/
def Admits (r : InstallSnapshotRequest) (p : PeerState) : Prop :=
  r.lastIncludedIndex < p.commit →
    lastStamp (p.log.take r.lastIncludedIndex.toNat) = r.lastIncludedTerm

/-- The snapshot's boundary in the member's log, and what the log becomes. -/
structure Installed (h : Hist) (v : NodeId) (m : Members) (p : PeerState)
    (r : InstallSnapshotRequest)
    (k : Nat) (log' : RaftLog) (l' : List LogEntry) : Prop where
  shows : Shows log' l' k
  whole : Whole l'
  boundary : l'.take k = (h.leaderLog r.term).take k
  commit : max p.commit k ≤ l'.length
  kept : Keeps (Replaces h r p) p.log l'
  move : ∀ q : PeerState, q.log = p.log → q.base = p.base → q.commit = p.commit → q.term ≤ r.term →
    Move m.quorums v h q h
      { q with log := l', base := k, commit := max p.commit k, role := .follower }

/-- **Moving the boundary**: the log keeps what is above it if it has the boundary's term there,
and is dropped for it if not. -/
theorem install_boundary (hl : Live m v n d p h) {r : InstallSnapshotRequest} {k : Nat}
    (hel : h.Elected r.term) (hk : k ≤ (h.leaderLog r.term).length) (hidx : r.lastIncludedIndex = k)
    (hterm : r.lastIncludedTerm = lastStamp ((h.leaderLog r.term).take k))
    (hdec : h.Decided ((h.leaderLog r.term).take k)) (hbk : p.base ≤ k)
    (hguard : ¬ (n.state.commitIndex > k ∧ n.log.termAt k ≠ some r.lastIncludedTerm)) :
    ∃ log' l', n.log.installSnapshotBoundary k r.lastIncludedTerm = .ok log' ∧
      Installed h v m p r k log' l' := by
  have hm := hl.mirrors
  have hLt := hl.history.leader_traced r.term
  have hWlen : ((h.leaderLog r.term).take k).length = k := List.length_take_of_le hk
  have hbidx : (p.base : Int) ≤ r.lastIncludedIndex := by rw [hidx]; exact_mod_cast hbk
  by_cases hhas : n.log.termAt k = some r.lastIncludedTerm
  · -- the log has the boundary
    obtain ⟨i, hi, -, hkl, hstamp⟩ := hm.log.termAt_eq_some.mp hhas
    obtain rfl : k = i := by omega
    have heq : p.log.take k = (h.leaderLog r.term).take k :=
      hl.peer.traced.take_eq hLt hkl hk (by rw [← hstamp, hterm])
    obtain ⟨log', hinst, hs'⟩ := hm.log.install_kept hbk hkl
    rw [← hstamp] at hinst
    refine ⟨log', p.log, hinst, hs', hl.log_whole, heq, max_le hl.peer.commit_le hkl,
      Keeps.refl _ _, ?_⟩
    rintro ⟨qt, qv, qr, ql, qc, qb⟩ rfl rfl rfl hqt
    exact Move.installKept r.term k hqt hel hk hdec hbk (by
      change (h.leaderLog r.term).take k <+: p.log
      rw [← heq]
      exact List.take_prefix _ _)
  · -- it does not, and so is not committed so far
    have hcommit : p.commit ≤ k := by
      by_contra hlt
      exact hguard ⟨by rw [hm.commit]; omega, hhas⟩
    have hnot : ¬ h.Holds r.term k p.log := by
      intro hheld
      have hkl : k ≤ p.log.length := hWlen ▸ hheld.length_le
      refine hhas ?_
      rw [hm.log.termAt hbk hkl, hterm, ← prefix_eq_take hheld, hWlen]
    have hlt : p.base < k := by
      refine hbk.lt_of_ne fun hbase => hnot ?_
      have hbc := hl.peer.base_le
      have hcl := hl.peer.commit_le
      obtain ⟨u, hu, -⟩ := hl.peer.decided
      have hpc : p.commit = k := by omega
      rcases hl.history.decided_comparable hdec hu.decided with hp | hp
      · exact hp.trans (List.take_prefix _ _)
      · have := hp.eq_of_length (by rw [hWlen, List.length_take_of_le hcl, hpc])
        rw [History.Holds, ← this]
        exact List.take_prefix _ _
    obtain ⟨log', hinst, hs'⟩ := hm.log.install_fresh (m := (h.leaderLog r.term).take k)
      (by rw [hWlen]; exact hlt) (by rw [hWlen, ← hterm]; exact hhas)
    rw [hWlen, ← hterm] at hinst
    rw [hWlen] at hs'
    refine ⟨log', (h.leaderLog r.term).take k, hinst, hs',
      (hl.whole _).of_isPrefix (List.take_prefix _ _), by rw [List.take_take, min_self],
      by rw [hWlen]; exact max_le hcommit le_rfl, fun i e he => ?_, ?_⟩
    · by_cases hik : i < k
      · by_cases hsame : (h.leaderLog r.term)[i]? = p.log[i]?
        · left
          rw [List.getElem?_take, if_pos hik, hsame, he]
        · exact Or.inr ⟨hbidx, Or.inr ⟨by rw [hidx]; omega, hsame⟩⟩
      · have hil : i < p.log.length := (List.getElem?_eq_some_iff.mp he).1
        refine Or.inr ⟨hbidx, Or.inl ⟨by rw [hidx]; omega, fun hstamp => hhas ?_⟩⟩
        rw [hidx] at hstamp
        rw [hm.log.termAt hbk (by omega), ← hstamp]
        rfl
    · rintro ⟨qt, qv, qr, ql, qc, qb⟩ rfl rfl rfl hqt
      have := Move.installFresh (Q := m.quorums) (v := v) (h := h)
        (p := ⟨qt, qv, qr, p.log, p.commit, p.base⟩) r.term k hqt hel hk hdec hbk hcommit hnot
      rwa [max_eq_right hcommit]

/-- The request's snapshot passes its checks, and the log copies. -/
theorem installSnapshot_parts (hl : Live m v n d p h) {r : InstallSnapshotRequest} {k : Nat}
    (hidx : r.lastIncludedIndex = k)
    (hterm : r.lastIncludedTerm = lastStamp ((h.leaderLog r.term).take k))
    (hrep : Replays ((h.leaderLog r.term).take k) ⟨r.state⟩) :
    (¬ (r.lastIncludedIndex < 0 ∨ r.lastIncludedTerm < 0)) ∧
    (∃ snapshot, RaftSnapshot.new r.lastIncludedIndex r.lastIncludedTerm r.state = .ok snapshot ∧
      snapshot.lastIncludedIndex = k ∧ snapshot.lastIncludedTerm = r.lastIncludedTerm ∧
      snapshot.state = r.state) ∧ n.log.copy = .ok n.log := by
  have hw := (hl.whole r.term).of_isPrefix (List.take_prefix k _)
  obtain ⟨snapshot, hnew, hcap⟩ := RaftSnapshot.new_captures (hl.whole r.term) k _ hrep
  have hnn := hw.lastStamp_nonneg
  have hstate : snapshot.state = r.state := by
    have := hcap.state.unique hrep
    exact congrArg KVStore.data this
  refine ⟨by rw [hidx, hterm]; omega, ⟨snapshot, ?_, hcap.index, ?_, hstate⟩,
    hl.mirrors.log.copy hl.log_whole⟩
  · rw [hidx, hterm]
    exact hnew
  · rw [hterm]
    exact hcap.term

/-- **`handle_install_snapshot`** once it has decided to install: the peer's base moves up, its
log with it if it must, and what a crash leaves is that as soon as the snapshot is on disk. -/
theorem installed_lawful (hl : Live m v n d p h) {r : InstallSnapshotRequest} {k : Nat}
    (hge : n.state.currentTerm ≤ r.term)
    (hel : h.Elected r.term) (hk : k ≤ (h.leaderLog r.term).length)
    (hterm : r.lastIncludedTerm = lastStamp ((h.leaderLog r.term).take k))
    (hrep : Replays ((h.leaderLog r.term).take k) ⟨r.state⟩) (hbk : p.base ≤ k)
    {log' : RaftLog} {l' : List LogEntry}
    (hinst : n.log.installSnapshotBoundary k r.lastIncludedTerm = .ok log')
    (hi : Installed h v m p r k log' l') {snapshot : RaftSnapshot}
    (hsnap : snapshot.lastIncludedIndex = k ∧ snapshot.lastIncludedTerm = r.lastIncludedTerm ∧
      snapshot.state = r.state) {store' : KVStore}
    (hstore : Replays (l'.take (max p.commit k)) store') (timer : ElectionTimer) :
    ∃ h', Lawful m v h p d (fun i => p.term ≤ r.term ∧ Replaces h r p i)
      { n with
        state := { n.state.follow r.term (some r.leaderId) with
          commitIndex := (max p.commit k : Nat), lastApplied := (max p.commit k : Nat) }
        snapshot, log := log', logObject := n.logObject + 1, store := store'
        replication := none, timer }
      (saveSnapshot snapshot ++ saveLog log' ++
        saveState { n.state.follow r.term (some r.leaderId) with
          commitIndex := (max p.commit k : Nat), lastApplied := (max p.commit k : Nat) })
      h' { p with
        term := r.term, vote := (n.state.follow r.term (some r.leaderId)).votedFor
        role := .follower, log := l', base := k, commit := max p.commit k } ∧
      h'.decisions = h.decisions ∧ (v, r.term, k) ∈ h'.acks ∧ h'.Holds r.term k l' := by
  have hm := hl.mirrors
  have hpt : p.term ≤ r.term := hm.term ▸ hge
  have hcap : Captures snapshot l' k := by
    refine ⟨hsnap.1, ?_, ?_⟩
    · rw [hsnap.2.1, hterm, hi.boundary]
    · rw [hsnap.2.2, hi.boundary]
      exact hrep
  have hkept : Keeps (fun i => p.term ≤ r.term ∧ Replaces h r p i) p.log l' :=
    fun i e he => (hi.kept i e he).imp id fun hr => ⟨hpt, hr⟩
  have hheld : (h.leaderLog r.term).take k <+: l' := by
    rw [← hi.boundary]
    exact List.take_prefix _ _
  have hfollow := follow_moves (Q := m.quorums) (v := v) (h := h) hm hge (some r.leaderId)
  have hmoves := (hfollow.tail (hi.move _ rfl rfl rfl le_rfl)).tail (Move.ack k hel hk hheld)
  refine ⟨_, ⟨hmoves, hl.whole, Or.inl rfl, .of_eq rfl, hkept, ?_, fun j hj => ?_⟩, rfl,
    Or.inr ⟨k, le_rfl, rfl⟩, hheld⟩
  · exact {
      id := hl.id
      stateId := hl.stateId
      members := hl.members
      member := hl.member
      mirrors := ⟨rfl, rfl, rfl, rfl, rfl, hi.shows, hstore, hcap⟩
      saved := ⟨rfl, rfl,
        DataDir.loadLog_rewrite (d := d.write (.saveSnapshot snapshot)) hi.shows hi.whole⟩
      votes := fun hr => nomatch hr
      table := fun r hr => nomatch hr }
  · -- from the first durable effect on, the snapshot decides what the log is
    have hcrash : ∀ {d' : DataDir}, d'.savedState = d.savedState → d'.loadSnapshot = snapshot →
        (∃ journal log', d'.loadLog = .ok journal ∧ journal.baseIndex ≤ k ∧
          journal.installSnapshotBoundary k (lastStamp (l'.take k)) = .ok log' ∧
          Shows log' l' k) →
        Crashed m v h p (fun i => p.term ≤ r.term ∧ Replaces h r p i) d' h { p with
          log := l', base := k, commit := max p.commit k, role := .follower } := by
      intro d' hst hsn hlog
      have hdisk := hl.onDisk
      refine ⟨(hi.move p rfl rfl rfl hpt).moves, hl.whole, rfl, .of_eq rfl, hkept, ?_, ?_, ?_,
        hsn ▸ hcap, hlog⟩
      · rw [hst]
        exact hdisk.term
      · rw [hst]
        exact hdisk.vote
      · rw [hst, hl.saved.state]
        change max n.state.commitIndex (k : Int) = (max p.commit k : Nat)
        rw [hm.commit]
        omega
    have hbound : lastStamp (l'.take k) = r.lastIncludedTerm := by rw [hi.boundary, hterm]
    rcases j with _ | _ | _ | j
    · exact ⟨h, p, hl.crashed, rfl⟩
    · exact ⟨h, _, hcrash rfl rfl ⟨n.log, log', hl.saved.log, by rw [hm.log.base]; omega,
        hbound ▸ hinst, hi.shows⟩, rfl⟩
    · obtain ⟨log'', hinst', hs''⟩ := hi.shows.install_kept le_rfl hi.shows.le
      exact ⟨h, _, hcrash rfl rfl ⟨log', log'', DataDir.loadLog_rewrite
        (d := d.write (.saveSnapshot snapshot)) hi.shows hi.whole, hi.shows.base.le, hinst', hs''⟩,
        rfl⟩
    · have : j + 3 < 3 := hj
      omega

/-- What is decided and ends below the base is held. -/
theorem covered_holds (hl : Live m v n d p h) {t : Int} {k : Nat}
    (hk : k ≤ (h.leaderLog t).length) (hdec : h.Decided ((h.leaderLog t).take k))
    (hcovered : k < p.base) : h.Holds t k p.log := by
  have hbase : h.Decided (p.log.take p.base) := by
    obtain ⟨u, hu, -⟩ := hl.peer.decided
    exact hu.decided.of_isPrefix (List.take_prefix_take_left hl.peer.base_le)
  rcases hl.history.decided_comparable hdec hbase with hp | hp
  · exact hp.trans (List.take_prefix _ _)
  · have := hp.length_le
    rw [List.length_take_of_le hk, List.length_take_of_le hl.mirrors.log.le] at this
    omega

/-- Following a term and acknowledging what is held of its log. -/
theorem acked_lawful (lost : Nat → Prop) (hl : Live m v n d p h) {term : Int} {k : Nat}
    (ht : n.state.currentTerm ≤ term) (hel : h.Elected term) (hk : k ≤ (h.leaderLog term).length)
    (hheld : h.Holds term k p.log) (leaderId : Option NodeId) (timer : ElectionTimer)
    {ws : List Write} (hws : ws = saveState (n.state.follow term leaderId) ∨
      ws = [] ∧ (n.state.follow term leaderId).persisted = n.state.persisted) :
    Lawful m v h p d lost
      { n with state := n.state.follow term leaderId, replication := none, timer } ws
      { h with acks := h.acks ∪ {a | ∃ j ≤ k, a = (v, term, j)} }
      (withState p (n.state.follow term leaderId)) := by
  have hfollow := follow_lawful lost hl ht leaderId hws
  have hup : Up m v _ _ _ { h with acks := h.acks ∪ {a | ∃ j ≤ k, a = (v, term, j)} } :=
    (hfollow.up.setTimer timer).extend subset_rfl Set.subset_union_left
  exact .of_single hl (savedState_changed hws hl.saved.state).2.2.2
    (hfollow.moves.tail (Move.ack k hel hk hheld)) hl.whole (Or.inl rfl) (.of_eq rfl)
    (Keeps.refl _ _) hup

/-- **`handle_install_snapshot`**. -/
theorem handleInstallSnapshot_lawful (hl : Live m v n d p h) {r : InstallSnapshotRequest}
    (hr : Installs h r) (clock : Clock) :
    ∃ a n' ws h' p', RaftNode.handleInstallSnapshot clock r n = ⟨.ok a, n', ws⟩ ∧
      Lawful m v h p d (fun i => p.term ≤ r.term ∧ Admits r p ∧ Replaces h r p i) n'
        (ws.map (·.write)) h' p' ∧
      h'.decisions = h.decisions ∧ a.term = p'.term ∧
      (a.success = true → a.term = r.term ∧ ∃ k : Nat, r.lastIncludedIndex = k ∧
        (v, r.term, k) ∈ h'.acks ∧ h'.Holds r.term k p'.log) := by
  obtain ⟨hel, k, hk, hidx, hterm, hrep, hdec⟩ := hr
  have hm := hl.mirrors
  by_cases hold : r.term < n.state.currentTerm
  · refine ⟨⟨n.state.currentTerm, false⟩, n, [], h, p, ?_, .quiet hl hl.toUp, rfl, hm.term.symm,
      by simp⟩
    simp only [RaftNode.handleInstallSnapshot, NodeM.bind_run, NodeM.get_run, NodeM.andThen_ok,
      NodeM.behind_nil, NodeM.ite_run, if_pos hold, NodeM.pure_run]
  have hge : n.state.currentTerm ≤ r.term := not_lt.mp hold
  set s := n.state.follow r.term (some r.leaderId) with hs
  obtain ⟨hvalid, ⟨snapshot, hnew, hsidx, hsterm, hsstate⟩, hcopy⟩ :=
    installSnapshot_parts hl hidx hterm hrep
  -- a refusal still takes the term over
  set ws₀ := if s.currentTerm ≠ n.state.currentTerm then saveState s else [] with hws₀
  have hws : ws₀ = saveState s ∨ ws₀ = [] ∧ s.persisted = n.state.persisted := by
    rw [hws₀]
    split
    · exact Or.inl rfl
    · rename_i hsame
      refine Or.inr ⟨rfl, ?_⟩
      have hsame : r.term = n.state.currentTerm := not_not.mp hsame
      simp [hs, RaftState.persisted, RaftState.follow, hsame]
  have hrefuse := follow_lawful (fun i => p.term ≤ r.term ∧ Admits r p ∧ Replaces h r p i) hl hge
    (some r.leaderId) hws
  simp only [RaftNode.handleInstallSnapshot, NodeM.bind_run, NodeM.get_run, NodeM.andThen_ok,
    NodeM.behind_nil, NodeM.ite_run, if_neg hold, RaftNode.becomeFollower,
    RaftState.becomeFollower_ok _ hge, NodeM.lift_ok_run, NodeM.modify_run, if_neg hvalid,
    NodeM.pure_run, ← hs, persistTerm_run]
  have hsc : s.commitIndex = p.commit := hm.commit
  rw [hidx]
  by_cases hcovered : (k : Int) < n.snapshot.lastIncludedIndex
  · -- a snapshot that is already covered: both are decided, so it is held
    rw [if_pos hcovered, hm.snapshot.index] at *
    have hheld := covered_holds hl hk hdec (by omega)
    simp only [NodeM.behind_mk, List.append_nil]
    refine ⟨⟨r.term, true⟩, { n with
        state := s, replication := none, timer := .reset clock.now clock.timeout },
      ws₀.map fun w => ⟨{ n with state := s, replication := none }, w⟩,
      { h with acks := h.acks ∪ {a | ∃ j ≤ k, a = (v, r.term, j)} }, withState p s, rfl, ?_,
      rfl, rfl, fun _ => ⟨rfl, k, rfl, Or.inr ⟨k, le_rfl, rfl⟩, hheld⟩⟩
    rw [NodeM.writes_of_persist]
    exact acked_lawful _ hl hge hel hk hheld (some r.leaderId) _ hws
  rw [if_neg hcovered]
  by_cases hguard : s.commitIndex > k ∧ n.log.termAt k ≠ some r.lastIncludedTerm
  · rw [if_pos hguard]
    simp only [NodeM.behind_mk, List.append_nil]
    refine ⟨⟨r.term, false⟩, { n with state := s, replication := none },
      ws₀.map fun w => ⟨{ n with state := s, replication := none }, w⟩, h, withState p s, rfl, ?_,
      rfl, rfl, by simp⟩
    rw [NodeM.writes_of_persist]
    exact hrefuse
  rw [if_neg hguard]
  have hbk : p.base ≤ k := by
    rw [hm.snapshot.index] at hcovered
    omega
  obtain ⟨log', l', hinst, hi⟩ := install_boundary hl hel hk hidx hterm hdec hbk hguard
  obtain ⟨store', happ, hstore⟩ := applyCommittedEntries_replays (c := max p.commit k)
    { s with commitIndex := max s.commitIndex (k : Int), lastApplied := (k : Int) }
    (n.store.restore snapshot.state) hi.shows hi.whole rfl
    (by show max s.commitIndex (k : Int) = _; rw [hsc]; omega) le_rfl (le_max_right _ _) hi.commit
    (by rw [hi.boundary, hsstate]; exact hrep)
  obtain ⟨h', hlaw, hdec', hack, hheld⟩ := installed_lawful hl hge hel hk hterm hrep hbk hinst hi
    ⟨hsidx, hsterm, hsstate⟩ hstore (.reset clock.now clock.timeout)
  have hadmits : Admits r p := by
    intro hlt
    rw [hidx] at hlt ⊢
    by_contra hne
    refine hguard ⟨by rw [hsc]; exact hlt, fun hat => hne ?_⟩
    obtain ⟨i, hi, -, -, hstamp⟩ := hm.log.termAt_eq_some.mp hat
    obtain rfl : k = i := by omega
    exact hstamp.symm
  have hmax : max s.commitIndex (k : Int) = (max p.commit k : Nat) := by
    rw [hsc]
    omega
  have hnotlong : ¬ ((max p.commit k : Nat) : Int) > log'.lastIndex := by
    have := hi.commit
    rw [hi.shows.lastIndex]
    omega
  rw [hmax] at happ
  rw [hidx] at hnew
  rw [hnew, hcopy]
  simp only [NodeM.lift_ok_run, NodeM.andThen_ok, NodeM.bind_run, hinst,
    NodeM.ite_run, if_neg hnotlong, NodeM.persist_run, NodeM.modify_run, NodeM.get_run,
    RaftNode.persistState, NodeM.behind_mk, NodeM.pure_run, hmax, RaftNode.applyCommitted, happ,
    List.append_nil]
  set s' : RaftState := { s with
    commitIndex := (max p.commit k : Nat), lastApplied := (max p.commit k : Nat) } with hs'
  refine ⟨⟨r.term, true⟩, { n with
      state := s', snapshot, log := log', logObject := n.logObject + 1, store := store'
      replication := none
      timer := .reset clock.now clock.timeout },
    (saveSnapshot snapshot).map (fun w => ⟨{ n with state := s, replication := none }, w⟩) ++
      ((saveLog log').map (fun w => ⟨{ n with state := s, replication := none }, w⟩) ++
        (saveState s').map fun w => ⟨{ n with
          state := s', snapshot, log := log', logObject := n.logObject + 1, store := store'
          replication := none }, w⟩),
    h', { p with
      term := r.term, vote := s.votedFor, role := .follower, log := l', base := k
      commit := max p.commit k }, rfl, ?_, hdec', rfl, fun _ => ⟨rfl, k, rfl, hack, hheld⟩⟩
  rw [List.map_append, List.map_append, NodeM.writes_of_persist, NodeM.writes_of_persist,
    NodeM.writes_of_persist, ← List.append_assoc]
  exact hlaw.mono fun _ hi => ⟨hi.1, hadmits, hi.2⟩

end PyRaftKv
