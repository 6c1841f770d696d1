/-
# InstallSnapshot and the history a node has committed

The node is any whose applied entries are its committed ones, above its base and within its log;
the request is arbitrary.

`handle_install_snapshot` compares its own term at the request's index with the request's, but only
where it has committed MORE than that index.  At the index of its last committed entry it does not
look, and a request with another term there takes the entry's place (`committed_entry_replaced`).
`install_keeps_history_iff` lists the requests for which this and the other ways to go wrong are
excluded.
-/
import PyRaftKv.Refinement.Merging

namespace PyRaftKv

/-! ## 1. Moving the boundary of any log -/

section Boundary

variable {log log' : RaftLog} {k t : Int}

theorem RaftLog.rebase_get (h₁ : log.baseIndex ≤ k) (h₂ : k = 0 → t = 0) (hk : k ≤ log.lastIndex) :
    (log.rebase k t h₁ h₂).lastIndex = log.lastIndex ∧
      ∀ i, k < i → (log.rebase k t h₁ h₂).get i = log.get i := by
  have hlast := log.lastIndex_eq
  have hlast' := (log.rebase k t h₁ h₂).lastIndex_eq
  have hlen : (log.rebase k t h₁ h₂).entries.length =
      log.entries.length - (k - log.baseIndex).toNat := List.length_drop
  have hbase : (log.rebase k t h₁ h₂).baseIndex = k := rfl
  have hend : (log.rebase k t h₁ h₂).lastIndex = log.lastIndex := by omega
  refine ⟨hend, fun i hi => ?_⟩
  unfold RaftLog.get
  rw [hend]
  by_cases hout : log.lastIndex < i
  · rw [if_pos (Or.inr hout), if_pos (Or.inr hout)]
  · rw [if_neg (by omega), if_neg (by omega)]
    unfold RaftLog.position
    change (log.entries.drop (k - log.baseIndex).toNat)[(i - k - 1).toNat]? = _
    rw [List.getElem?_drop]
    congr 1
    omega

/-- **Installing a boundary** keeps what is above it where the log has the boundary's term, and
else leaves nothing above it. -/
theorem RaftLog.install_spec (h : log.installSnapshotBoundary k t = .ok log') :
    log.baseIndex ≤ k ∧ log'.baseIndex = k ∧
      (log.termAt k = some t ∧ log'.lastIndex = log.lastIndex ∧
          (∀ i, k < i → log'.get i = log.get i) ∨
        log.baseIndex < k ∧ log.termAt k ≠ some t ∧ log'.lastIndex = k) := by
  unfold RaftLog.installSnapshotBoundary at h
  split at h
  · cases h
  rename_i hlow
  split at h
  · rename_i heq
    split at h
    · cases h
    · rename_i hterm
      cases h
      refine ⟨not_lt.mp hlow, heq.symm, Or.inl ⟨?_, rfl, fun _ _ => rfl⟩⟩
      unfold RaftLog.termAt
      rw [if_pos heq, not_not.mp hterm]
  · rename_i hne
    split at h
    · rename_i hterm
      cases h
      refine ⟨not_lt.mp hlow, rfl, Or.inl ⟨hterm, RaftLog.rebase_get (not_lt.mp hlow) ?_
        (RaftLog.reaches_of_termAt hterm).2⟩⟩
      have := log.base_nonneg
      omega
    · rename_i hterm
      cases h
      exact ⟨not_lt.mp hlow, rfl, Or.inr ⟨by omega, hterm, rfl⟩⟩

/-- A boundary is refused below the base, and at the base with another term. -/
theorem RaftLog.install_ok_iff : (∃ log', log.installSnapshotBoundary k t = .ok log') ↔
    log.baseIndex < k ∨ k = log.baseIndex ∧ t = log.baseTerm := by
  unfold RaftLog.installSnapshotBoundary
  split
  · simp only [reduceCtorEq, exists_false, false_iff]
    omega
  · split
    · rename_i heq
      split
      · rename_i hne
        simp only [reduceCtorEq, exists_false, false_iff]
        omega
      · rename_i hsame
        exact ⟨fun _ => Or.inr ⟨heq, not_not.mp hsame⟩, fun _ => ⟨_, rfl⟩⟩
    · split <;> exact ⟨fun _ => Or.inl (by omega), fun _ => ⟨_, rfl⟩⟩

end Boundary

/-! ## 2. What the handler must keep -/

/-- Nothing of the node's history has moved. -/
structure Untouched (n n' : RaftNode) : Prop where
  log : n'.log = n.log
  snapshot : n'.snapshot = n.snapshot
  store : n'.store = n.store
  commitIndex : n'.state.commitIndex = n.state.commitIndex
  lastApplied : n'.state.lastApplied = n.state.lastApplied

/-- The node has committed the request's index, and knows another term for it. -/
def Disputes (n : RaftNode) (r : InstallSnapshotRequest) : Prop :=
  r.lastIncludedIndex ≤ n.state.commitIndex ∧
    ∃ t ∈ n.log.termAt r.lastIncludedIndex, t ≠ r.lastIncludedTerm

/-- **Committed history is not rewritten.**  A request the node disputes is refused and changes
nothing; and whatever the request, the commit index does not go back, what is committed is applied
and held, and what is still there of it is as it was. -/
structure HistoryKept (n : RaftNode) (r : InstallSnapshotRequest)
    (o : Outcome InstallSnapshotResponse) : Prop where
  refused : Disputes n r → (∃ term, o.result = .ok ⟨term, false⟩) ∧ Untouched n o.node
  commit_le : n.state.commitIndex ≤ o.node.state.commitIndex
  applied : o.node.state.commitIndex = o.node.state.lastApplied
  held : o.node.state.lastApplied ≤ o.node.log.lastIndex
  retained : ∀ i ≤ n.state.commitIndex, ∀ e, o.node.log.get i = some e → n.log.get i = some e

/-- What is committed is applied, above the base and within the log. -/
structure FullyApplied (n : RaftNode) : Prop where
  base : n.log.baseIndex ≤ n.state.lastApplied
  applied : n.state.lastApplied = n.state.commitIndex
  last : n.state.commitIndex ≤ n.log.lastIndex

theorem HistoryKept.of_untouched {n : RaftNode} {r : InstallSnapshotRequest}
    {o : Outcome InstallSnapshotResponse} (hn : FullyApplied n) (hu : Untouched n o.node)
    (hrefused : Disputes n r → ∃ term, o.result = .ok ⟨term, false⟩) : HistoryKept n r o where
  refused hd := ⟨hrefused hd, hu⟩
  commit_le := hu.commitIndex.ge
  applied := by rw [hu.commitIndex, hu.lastApplied, hn.applied]
  held := by rw [hu.lastApplied, hu.log, hn.applied]; exact hn.last
  retained i _ e h := by rwa [hu.log] at h

/-! ## 3. The branches of the handler -/

/-- The log of the node has an entry of another term where the request has its boundary, and the
node has committed more. -/
def Guarded (n : RaftNode) (r : InstallSnapshotRequest) : Prop :=
  n.state.commitIndex > r.lastIncludedIndex ∧
    n.log.termAt r.lastIncludedIndex ≠ some r.lastIncludedTerm

/-- The request is of a term the node follows, and its numbers are not negative. -/
def Heeded (n : RaftNode) (r : InstallSnapshotRequest) : Prop :=
  n.state.currentTerm ≤ r.term ∧ 0 ≤ r.lastIncludedIndex ∧ 0 ≤ r.lastIncludedTerm

/-- **What the handler does** with a request that it heeds, branch by branch. -/
inductive Verdict (n : RaftNode) (r : InstallSnapshotRequest)
    (o : Outcome InstallSnapshotResponse) : Prop
  /-- The node's own snapshot covers the request. -/
  | covered (hidx : r.lastIncludedIndex < n.snapshot.lastIncludedIndex)
      (hresult : o.result = .ok ⟨r.term, true⟩) (hu : Untouched n o.node)
  | guarded (hidx : n.snapshot.lastIncludedIndex ≤ r.lastIncludedIndex) (hguard : Guarded n r)
      (hresult : o.result = .ok ⟨r.term, false⟩) (hu : Untouched n o.node)
  /-- The request is no snapshot, or the log cannot be copied. -/
  | raised (hidx : n.snapshot.lastIncludedIndex ≤ r.lastIncludedIndex) (hguard : ¬ Guarded n r)
      (hbad : r.lastIncludedIndex = 0 ∧ r.lastIncludedTerm ≠ 0 ∨ n.log.baseTerm < 0)
      (e : RaftError) (hresult : o.result = .error e) (hu : Untouched n o.node)
  /-- The log refuses the boundary, or would end below the commit index. -/
  | refused (hidx : n.snapshot.lastIncludedIndex ≤ r.lastIncludedIndex) (hguard : ¬ Guarded n r)
      (hgood : ¬ (r.lastIncludedIndex = 0 ∧ r.lastIncludedTerm ≠ 0)) (hbase : 0 ≤ n.log.baseTerm)
      (hlog : ∀ log', n.log.installSnapshotBoundary r.lastIncludedIndex r.lastIncludedTerm =
        .ok log' → log'.lastIndex < max n.state.commitIndex r.lastIncludedIndex)
      (hresult : o.result = .ok ⟨r.term, false⟩) (hu : Untouched n o.node)
  | installed (hidx : n.snapshot.lastIncludedIndex ≤ r.lastIncludedIndex) (hguard : ¬ Guarded n r)
      (hgood : ¬ (r.lastIncludedIndex = 0 ∧ r.lastIncludedTerm ≠ 0)) (hbase : 0 ≤ n.log.baseTerm)
      (log' : RaftLog)
      (hlog : n.log.installSnapshotBoundary r.lastIncludedIndex r.lastIncludedTerm = .ok log')
      (hlast : max n.state.commitIndex r.lastIncludedIndex ≤ log'.lastIndex)
      (hnode : o.node.log = log') (hresult : ∀ term, o.result ≠ .ok ⟨term, false⟩)
      (store : KVStore)
      (hstate : o.node.state = (applyCommittedEntries
        { n.state.follow r.term (some r.leaderId) with
          commitIndex := max n.state.commitIndex r.lastIncludedIndex
          lastApplied := r.lastIncludedIndex } log' store).2.1)

/-- A request that is not heeded is refused. -/
theorem handleInstallSnapshot_unheeded (clock : Clock) {n : RaftNode}
    {r : InstallSnapshotRequest} (h : ¬ Heeded n r) :
    (∃ term, (RaftNode.handleInstallSnapshot clock r n).result = .ok ⟨term, false⟩) ∧
      Untouched n (RaftNode.handleInstallSnapshot clock r n).node := by
  by_cases hold : r.term < n.state.currentTerm
  · simp only [RaftNode.handleInstallSnapshot, NodeM.bind_run, NodeM.get_run,
      NodeM.andThen_ok, NodeM.behind_nil, NodeM.ite_run, if_pos hold, NodeM.pure_run]
    exact ⟨⟨_, rfl⟩, rfl, rfl, rfl, rfl, rfl⟩
  have hge : n.state.currentTerm ≤ r.term := not_lt.mp hold
  have hneg : r.lastIncludedIndex < 0 ∨ r.lastIncludedTerm < 0 := by
    unfold Heeded at h
    omega
  simp only [RaftNode.handleInstallSnapshot, NodeM.bind_run, NodeM.get_run, NodeM.andThen_ok,
    NodeM.behind_mk, NodeM.ite_run, if_neg hold, if_pos hneg, RaftNode.becomeFollower,
    RaftState.becomeFollower_ok _ hge, NodeM.lift_ok_run, NodeM.modify_run, NodeM.pure_run,
    persistTerm_run]
  exact ⟨⟨_, rfl⟩, rfl, rfl, rfl, rfl, rfl⟩

/-- **The handler of InstallSnapshot takes one of its branches.** -/
theorem handleInstallSnapshot_verdict (clock : Clock) {n : RaftNode} {r : InstallSnapshotRequest}
    (h : Heeded n r) : Verdict n r (RaftNode.handleInstallSnapshot clock r n) := by
  obtain ⟨hge, hidx, hterm⟩ := h
  have hneg : ¬ (r.lastIncludedIndex < 0 ∨ r.lastIncludedTerm < 0) := by omega
  set s := n.state.follow r.term (some r.leaderId) with hs
  have hquiet : ∀ timer, Untouched n { n with state := s, replication := none, timer } :=
    fun timer => ⟨rfl, rfl, rfl, rfl, rfl⟩
  have hsc : s.commitIndex = n.state.commitIndex := rfl
  simp only [RaftNode.handleInstallSnapshot, NodeM.bind_run, NodeM.get_run, NodeM.andThen_ok,
    NodeM.behind_nil, NodeM.ite_run, if_neg (not_lt.mpr hge), if_neg hneg,
    RaftNode.becomeFollower, RaftState.becomeFollower_ok _ hge, NodeM.lift_ok_run,
    NodeM.modify_run, NodeM.pure_run, ← hs, persistTerm_run, hsc]
  by_cases hcovered : r.lastIncludedIndex < n.snapshot.lastIncludedIndex
  · rw [if_pos hcovered]
    exact .covered hcovered rfl (hquiet _)
  rw [if_neg hcovered]
  by_cases hguard : n.state.commitIndex > r.lastIncludedIndex ∧
      n.log.termAt r.lastIncludedIndex ≠ some r.lastIncludedTerm
  · rw [if_pos hguard]
    exact .guarded (not_lt.mp hcovered) hguard rfl (hquiet _)
  rw [if_neg hguard]
  by_cases hzero : r.lastIncludedIndex = 0 ∧ r.lastIncludedTerm ≠ 0
  · obtain ⟨e, hnew⟩ : ∃ e, RaftSnapshot.new r.lastIncludedIndex r.lastIncludedTerm r.state =
        .error e := by
      unfold RaftSnapshot.new
      rw [dif_neg (not_lt.mpr hidx), dif_neg (not_lt.mpr hterm), dif_pos hzero]
      exact ⟨_, rfl⟩
    rw [hnew]
    exact .raised (not_lt.mp hcovered) hguard (Or.inl hzero) e rfl (hquiet _)
  obtain ⟨snapshot, hnew⟩ : ∃ snapshot,
      RaftSnapshot.new r.lastIncludedIndex r.lastIncludedTerm r.state = .ok snapshot := by
    unfold RaftSnapshot.new
    rw [dif_neg (not_lt.mpr hidx), dif_neg (not_lt.mpr hterm), dif_neg hzero]
    exact ⟨_, rfl⟩
  rw [hnew]
  by_cases hbase : n.log.baseTerm < 0
  · obtain ⟨e, hcopy⟩ := RaftLog.copy_raises hbase
    rw [hcopy]
    exact .raised (not_lt.mp hcovered) hguard (Or.inr hbase) e rfl (hquiet _)
  rw [RaftLog.copy_ok (not_lt.mp hbase)]
  simp only [NodeM.lift_ok_run, NodeM.andThen_ok, NodeM.behind_nil, NodeM.bind_run]
  rcases hinst : n.log.installSnapshotBoundary r.lastIncludedIndex r.lastIncludedTerm with
    e | log'
  · simp only [NodeM.bind_run, persistTerm_run, NodeM.andThen_ok, NodeM.pure_run]
    exact .refused (not_lt.mp hcovered) hguard hzero (not_lt.mp hbase) (by simp [hinst]) rfl
      (hquiet _)
  simp only [NodeM.ite_run]
  by_cases hshort : max n.state.commitIndex r.lastIncludedIndex > log'.lastIndex
  · rw [if_pos hshort]
    simp only [NodeM.bind_run, persistTerm_run, NodeM.andThen_ok, NodeM.pure_run]
    refine .refused (not_lt.mp hcovered) hguard hzero (not_lt.mp hbase) ?_ rfl (hquiet _)
    rw [hinst]
    rintro _ ⟨⟩
    exact hshort
  rw [if_neg hshort]
  simp only [NodeM.persist_run, NodeM.modify_run, NodeM.andThen_ok, NodeM.behind_nil,
    NodeM.bind_run, RaftNode.persistState, RaftNode.applyCommitted]
  rcases happ : applyCommittedEntries
      { s with
        commitIndex := max n.state.commitIndex r.lastIncludedIndex
        lastApplied := r.lastIncludedIndex } log' (n.store.restore snapshot.state) with
    ⟨_ | _, state, store⟩
  · exact .installed (not_lt.mp hcovered) hguard hzero (not_lt.mp hbase) log' hinst
      (not_lt.mp hshort) rfl (fun term h => by cases h) _ (congrArg (·.2.1) happ).symm
  · exact .installed (not_lt.mp hcovered) hguard hzero (not_lt.mp hbase) log' hinst
      (not_lt.mp hshort) rfl (fun term h => by cases h) _ (congrArg (·.2.1) happ).symm

/-! ## 4. When committed history is kept -/

/-- **The requests that the handler treats rightly.**  A request that the node disputes lies below
its last committed entry, or at a base that the log will not move; and where the node installs a
boundary below its commit index, it can apply again what it has committed above. -/
structure Harmless (n : RaftNode) (r : InstallSnapshotRequest) : Prop where
  disputed : Heeded n r → Disputes n r → n.snapshot.lastIncludedIndex ≤ r.lastIncludedIndex ∧
    (r.lastIncludedIndex < n.state.commitIndex ∨
      r.lastIncludedIndex = n.log.baseIndex ∧ r.lastIncludedIndex ≠ 0 ∧ 0 ≤ n.log.baseTerm)
  appliable : Heeded n r → n.snapshot.lastIncludedIndex ≤ r.lastIncludedIndex →
    n.log.termAt r.lastIncludedIndex = some r.lastIncludedTerm → 0 ≤ n.log.baseTerm →
    ∀ i, r.lastIncludedIndex < i → i ≤ n.state.commitIndex →
      ∃ e ∈ n.log.get i, RaftNode.validateCommand e.command = .ok ()

section Keeping

variable {n : RaftNode} {r : InstallSnapshotRequest}

theorem Disputes.other_term (hd : Disputes n r) :
    n.log.termAt r.lastIncludedIndex ≠ some r.lastIncludedTerm := by
  obtain ⟨-, t, ht, hne⟩ := hd
  rw [ht]
  exact fun h => hne (Option.some.inj h)

/-- A request the node disputes is guarded, or is at the last committed index. -/
theorem Disputes.guarded_or (hd : Disputes n r) :
    Guarded n r ∨ r.lastIncludedIndex = n.state.commitIndex := by
  rcases hd.1.lt_or_eq with hlt | heq
  · exact Or.inl ⟨hlt, hd.other_term⟩
  · exact Or.inr heq

/-- A request that is not refused was not disputed. -/
theorem HistoryKept.undisputed {o : Outcome InstallSnapshotResponse} (hk : HistoryKept n r o)
    (h : ∀ term, o.result ≠ .ok ⟨term, false⟩) : ¬ Disputes n r := by
  intro hd
  obtain ⟨⟨term, hfalse⟩, -⟩ := hk.refused hd
  exact h term hfalse

/-- What gets past the guard and is disputed all the same is at the base. -/
theorem Harmless.at_base (hs : Harmless n r) (hh : Heeded n r) (hguard : ¬ Guarded n r)
    (hd : Disputes n r) :
    r.lastIncludedIndex = n.log.baseIndex ∧ r.lastIncludedIndex ≠ 0 ∧ 0 ≤ n.log.baseTerm := by
  obtain ⟨-, hlt | hbase⟩ := hs.disputed hh hd
  · exact absurd ⟨hlt, hd.other_term⟩ hguard
  · exact hbase

/-- At index zero the term is zero. -/
theorem RaftLog.termAt_zero {log : RaftLog} {t : Int} (h : log.termAt 0 = some t) : t = 0 := by
  have hbase := log.base_nonneg
  have := (RaftLog.reaches_of_termAt h).1
  unfold RaftLog.termAt at h
  rw [if_pos (by omega)] at h
  cases h
  exact log.base_zero (by omega)

/-- A boundary that the log has is installed, and all of the log above it is kept. -/
theorem RaftLog.install_of_termAt {log : RaftLog} {k t : Int} (h : log.termAt k = some t) :
    ∃ log', log.installSnapshotBoundary k t = .ok log' ∧ log'.lastIndex = log.lastIndex := by
  have hreach := RaftLog.reaches_of_termAt h
  obtain ⟨log', hinst⟩ : ∃ log', log.installSnapshotBoundary k t = .ok log' := by
    refine RaftLog.install_ok_iff.mpr (hreach.1.lt_or_eq.imp_right fun heq => ⟨heq.symm, ?_⟩)
    unfold RaftLog.termAt at h
    rw [if_pos heq.symm] at h
    exact (Option.some.inj h).symm
  obtain ⟨-, -, ⟨-, hend, -⟩ | ⟨-, hne, -⟩⟩ := RaftLog.install_spec hinst
  · exact ⟨log', hinst, hend⟩
  · exact absurd h hne

/-- A request that raises is harmless unless it is disputed. -/
theorem Harmless.of_raised (hd : ¬ Disputes n r)
    (hbad : r.lastIncludedIndex = 0 ∧ r.lastIncludedTerm ≠ 0 ∨ n.log.baseTerm < 0) :
    Harmless n r := by
  refine ⟨fun _ h => absurd h hd, fun _ _ ht hbt => ?_⟩
  rcases hbad with ⟨hzero, hterm⟩ | hneg
  · rw [hzero] at ht
    exact absurd (RaftLog.termAt_zero ht) hterm
  · omega

/-- A request whose boundary the log refuses is harmless. -/
theorem Harmless.of_refused (hn : FullyApplied n)
    (hidx : n.snapshot.lastIncludedIndex ≤ r.lastIncludedIndex) (hguard : ¬ Guarded n r)
    (hgood : ¬ (r.lastIncludedIndex = 0 ∧ r.lastIncludedTerm ≠ 0)) (hbase : 0 ≤ n.log.baseTerm)
    (hlog : ∀ log', n.log.installSnapshotBoundary r.lastIncludedIndex r.lastIncludedTerm =
      .ok log' → log'.lastIndex < max n.state.commitIndex r.lastIncludedIndex) :
    Harmless n r := by
  refine ⟨fun _ hd => ⟨hidx, ?_⟩, fun _ _ ht _ i hi hle => ?_⟩
  · have heq := hd.guarded_or.resolve_left hguard
    obtain ⟨-, t, ht, hne⟩ := hd
    rcases (RaftLog.reaches_of_termAt ht).1.lt_or_eq with hlow | hsame
    · -- above the base the boundary would have been installed
      obtain ⟨log', hinst⟩ := RaftLog.install_ok_iff.mpr (Or.inl hlow)
      have hshort := hlog log' hinst
      obtain ⟨-, -, ⟨ht', -, -⟩ | ⟨-, -, hlast⟩⟩ := RaftLog.install_spec hinst
      · rw [ht] at ht'
        exact absurd (Option.some.inj ht') hne
      · omega
    · refine Or.inr ⟨hsame.symm, fun hzero => ?_, hbase⟩
      rw [hzero] at ht
      have hzt := RaftLog.termAt_zero ht
      exact hgood ⟨hzero, fun h => hne (hzt.trans h.symm)⟩
  · -- the boundary is one that the log has, so it would have been installed
    obtain ⟨log', hinst, hend⟩ := RaftLog.install_of_termAt ht
    have hshort := hlog log' hinst
    have hlast := hn.last
    omega

section Installed

variable {o : Outcome InstallSnapshotResponse} {log' : RaftLog} {store : KVStore}

/-- What the node has committed and applied once the boundary of `r` is installed. -/
theorem installed_commits (hstate : o.node.state = (applyCommittedEntries
      { n.state.follow r.term (some r.leaderId) with
        commitIndex := max n.state.commitIndex r.lastIncludedIndex
        lastApplied := r.lastIncludedIndex } log' store).2.1) :
    o.node.state.commitIndex = max n.state.commitIndex r.lastIncludedIndex ∧
      o.node.state.lastApplied ≤ max n.state.commitIndex r.lastIncludedIndex ∧
      (o.node.state.lastApplied = max n.state.commitIndex r.lastIncludedIndex ↔
        ∀ i, r.lastIncludedIndex < i → i ≤ max n.state.commitIndex r.lastIncludedIndex →
          ∃ e ∈ log'.get i, RaftNode.validateCommand e.command = .ok ()) := by
  have hsettles := applyCommittedEntries_settles log'
    { n.state.follow r.term (some r.leaderId) with
      commitIndex := max n.state.commitIndex r.lastIncludedIndex
      lastApplied := r.lastIncludedIndex } store (le_max_right _ _)
  rw [← hstate] at hsettles
  exact hsettles

/-- Where history is kept, what is committed above the boundary could be applied again. -/
theorem Harmless.of_installed (hk : HistoryKept n r o)
    (hlog : n.log.installSnapshotBoundary r.lastIncludedIndex r.lastIncludedTerm = .ok log')
    (hresult : ∀ term, o.result ≠ .ok ⟨term, false⟩)
    (hstate : o.node.state = (applyCommittedEntries
      { n.state.follow r.term (some r.leaderId) with
        commitIndex := max n.state.commitIndex r.lastIncludedIndex
        lastApplied := r.lastIncludedIndex } log' store).2.1) : Harmless n r := by
  obtain ⟨hcommit, -, hsettles⟩ := installed_commits hstate
  refine ⟨fun _ hd => absurd hd (hk.undisputed hresult), fun _ _ ht _ i hi hle => ?_⟩
  obtain ⟨-, -, ⟨-, -, hsame⟩ | ⟨-, hne, -⟩⟩ := RaftLog.install_spec hlog
  · rw [← hsame i hi]
    exact hsettles.mp (by rw [← hk.applied, hcommit]) i hi (by omega)
  · exact absurd ht hne

/-- A harmless request that is installed keeps history. -/
theorem Harmless.installed (hs : Harmless n r) (hh : Heeded n r)
    (hidx : n.snapshot.lastIncludedIndex ≤ r.lastIncludedIndex) (hguard : ¬ Guarded n r)
    (hbase : 0 ≤ n.log.baseTerm)
    (hlog : n.log.installSnapshotBoundary r.lastIncludedIndex r.lastIncludedTerm = .ok log')
    (hlast : max n.state.commitIndex r.lastIncludedIndex ≤ log'.lastIndex)
    (hnode : o.node.log = log')
    (hstate : o.node.state = (applyCommittedEntries
      { n.state.follow r.term (some r.leaderId) with
        commitIndex := max n.state.commitIndex r.lastIncludedIndex
        lastApplied := r.lastIncludedIndex } log' store).2.1) : HistoryKept n r o := by
  obtain ⟨hcommit, happlied, hsettles⟩ := installed_commits hstate
  obtain ⟨-, hbase', hspec⟩ := RaftLog.install_spec hlog
  refine ⟨fun hd => ?_, by omega, ?_, ?_, fun i hi e he => ?_⟩
  · -- a disputed boundary is installed above the base only
    have heq := (hs.at_base hh hguard hd).1
    rcases hspec with ⟨ht, -⟩ | ⟨hlt, -⟩
    · exact absurd ht hd.other_term
    · omega
  · rw [hcommit, hsettles.mpr]
    intro i hi hle
    have hic : i ≤ n.state.commitIndex := by omega
    rcases hspec with ⟨ht, -, hsame⟩ | ⟨-, hne, -⟩
    · rw [hsame i hi]
      exact hs.appliable hh hidx ht hbase i hi hic
    · exact absurd ⟨by omega, hne⟩ hguard
  · rw [hnode]
    omega
  · rw [hnode] at he
    have hbi := RaftLog.base_lt_of_get he
    have hil := RaftLog.get_le_lastIndex he
    rcases hspec with ⟨-, -, hsame⟩ | ⟨-, -, hend⟩
    · rwa [← hsame i (by omega)]
    · omega

end Installed

/-- **InstallSnapshot keeps committed history exactly for the harmless requests.** -/
theorem install_keeps_history_iff (clock : Clock) (n : RaftNode) (r : InstallSnapshotRequest)
    (hn : FullyApplied n) :
    HistoryKept n r (RaftNode.handleInstallSnapshot clock r n) ↔ Harmless n r := by
  by_cases hh : Heeded n r
  swap
  · obtain ⟨hfalse, hu⟩ := handleInstallSnapshot_unheeded clock hh
    exact ⟨fun _ => ⟨fun h => absurd h hh, fun h => absurd h hh⟩,
      fun _ => .of_untouched hn hu fun _ => hfalse⟩
  have hverdict := handleInstallSnapshot_verdict clock hh
  generalize RaftNode.handleInstallSnapshot clock r n = o at hverdict
  cases hverdict with
  | covered hidx hresult hu =>
    constructor
    · intro hk
      have hd := hk.undisputed fun term => by simp [hresult]
      exact ⟨fun _ h => absurd h hd, fun _ hle => absurd hidx (not_lt.mpr hle)⟩
    · intro hs
      refine .of_untouched hn hu fun hd => ?_
      exact absurd (hs.disputed hh hd).1 (not_le.mpr hidx)
  | guarded hidx hguard hresult hu =>
    exact ⟨fun _ => ⟨fun _ _ => ⟨hidx, Or.inl hguard.1⟩, fun _ _ ht => absurd ht hguard.2⟩,
      fun _ => .of_untouched hn hu fun _ => ⟨_, hresult⟩⟩
  | raised hidx hguard hbad e hresult hu =>
    constructor
    · intro hk
      exact .of_raised (hk.undisputed fun term => by simp [hresult]) hbad
    · intro hs
      refine .of_untouched hn hu fun hd => ?_
      obtain ⟨-, hne, hbt⟩ := hs.at_base hh hguard hd
      rcases hbad with ⟨hzero, -⟩ | hneg
      · exact absurd hzero hne
      · omega
  | refused hidx hguard hgood hbase hlog hresult hu =>
    exact ⟨fun _ => .of_refused hn hidx hguard hgood hbase hlog,
      fun _ => .of_untouched hn hu fun _ => ⟨_, hresult⟩⟩
  | installed hidx hguard hgood hbase log' hlog hlast hnode hresult store hstate =>
    constructor
    · intro hk
      exact .of_installed hk hlog hresult hstate
    · intro hs
      exact hs.installed hh hidx hguard hbase hlog hlast hnode hstate

end Keeping

/-- A follower that has committed and applied two entries of term 1. -/
def settledFollower : RaftNode where
  nodeId := "a"
  members := threeMembers
  state := { nodeId := "a", currentTerm := 1, commitIndex := 2, lastApplied := 2 }
  snapshot := {}
  log := twoDeletes
  store := {}
  timer := ⟨0⟩

def snapshotAt (index term : Int) : InstallSnapshotRequest where
  term := 2
  leaderId := "b"
  lastIncludedIndex := index
  lastIncludedTerm := term
  state := ∅

/-- A snapshot of the first entry leaves the second one where it is. -/
theorem install_keeps_history_iff_firstEntry : HistoryKept settledFollower (snapshotAt 1 1)
    (RaftNode.handleInstallSnapshot ⟨0, 1500⟩ (snapshotAt 1 1) settledFollower) := by
  refine (install_keeps_history_iff _ _ _ ⟨by decide, rfl, by decide⟩).mpr ⟨fun _ hd => ?_,
    fun _ _ _ _ i hi hle => ?_⟩
  · obtain ⟨-, t, ht, hne⟩ := hd
    cases ht
    exact absurd rfl hne
  · change 1 < i at hi
    change i ≤ 2 at hle
    obtain rfl : i = 2 := by omega
    exact ⟨_, rfl, rfl⟩

/-- **The last committed entry is replaced.**  The node has committed index 2 in term 1, and
accepts a snapshot that ends there in term 5. -/
theorem committed_entry_replaced :
    FullyApplied settledFollower ∧ Disputes settledFollower (snapshotAt 2 5) ∧
      ¬ HistoryKept settledFollower (snapshotAt 2 5)
        (RaftNode.handleInstallSnapshot ⟨0, 1500⟩ (snapshotAt 2 5) settledFollower) := by
  have hd : Disputes settledFollower (snapshotAt 2 5) := ⟨by decide, 1, rfl, by decide⟩
  refine ⟨⟨by decide, rfl, by decide⟩, hd, fun h => ?_⟩
  obtain ⟨⟨term, hfalse⟩, -⟩ := h.refused hd
  cases hfalse

end PyRaftKv
