/-
# What a follower's log holds after AppendEntries, and what it commits

The state, the log, the store and the request are arbitrary here; no run of a cluster is behind
them.  The request's entries follow one another.

The log is spliced exactly (`merge_exact`).  The commit index is not held to what was spliced:
`update_follower_commit` goes up to the last index of the log, and a suffix that the request says
nothing about counts (`stale_suffix_committed`).  `commits_verified_iff` says when it does not.
-/
import PyRaftKv.Refinement.Merging

namespace PyRaftKv

/-! ## 1. What a request vouches for -/

/-- The last index that is committed already or that the request has verified. -/
def AppendEntriesRequest.vouched (r : AppendEntriesRequest) (commitIndex : Int) : Int :=
  max commitIndex (r.prevLogIndex + r.entries.length)

/-- Nothing above what the request vouches for is committed or applied because of it. -/
structure CommitsVerified (r : AppendEntriesRequest) (s s' : RaftState) : Prop where
  commitIndex : s'.commitIndex ≤ r.vouched s.commitIndex
  lastApplied : s'.lastApplied ≤ max s.lastApplied (r.vouched s.commitIndex)

/-- A splice ends the log at the request's end, or leaves the end that it had. -/
theorem Spliced.lastIndex {log log' : RaftLog} {p : Int} {es : List LogEntry}
    (hs : Spliced log log' p es) :
    (∃ e ∈ es, log.Conflicts e) ∧ log'.lastIndex = p + es.length ∨
      (¬ ∃ e ∈ es, log.Conflicts e) ∧ log'.lastIndex = max log.lastIndex (p + es.length) := by
  by_cases hconf : ∃ e ∈ es, log.Conflicts e
  · exact Or.inl ⟨hconf, hs.cut hconf⟩
  · exact Or.inr ⟨hconf, (hs.kept fun e he hc => hconf ⟨e, he, hc⟩).1⟩

/-- **When a success answer commits verified entries only**: the leader's commit index is not above
what the request vouches for, or the log does not reach above it, or the request replaces the
suffix that does. -/
theorem commits_verified_iff {state state' : RaftState} {log log' : RaftLog}
    {r : AppendEntriesRequest} {store store' : KVStore} {a : AppendEntriesResponse}
    (hwf : Contiguous r.prevLogIndex r.entries)
    (hrun : PyRaftKv.handleAppendEntries state log r store = (.ok a, state', log', store'))
    (hsuccess : a.success = true) :
    CommitsVerified r state state' ↔
      r.leaderCommit ≤ r.vouched state.commitIndex ∨
        log.lastIndex ≤ r.vouched state.commitIndex ∨ ∃ e ∈ r.entries, log.Conflicts e := by
  obtain ⟨hs, hstate⟩ := handleAppendEntries_commits hwf hrun hsuccess
  have hlast := hs.lastIndex
  unfold AppendEntriesRequest.vouched
  constructor
  · rintro ⟨hcommit, -⟩
    rcases hlast with ⟨hconf, -⟩ | ⟨-, hlast⟩
    · exact Or.inr (Or.inr hconf)
    · unfold AppendEntriesRequest.vouched at hcommit
      rw [hstate] at hcommit
      split at hcommit
      · rename_i hle
        exact Or.inl (hle.trans (le_max_left _ _))
      · change min r.leaderCommit log'.lastIndex ≤ _ at hcommit
        omega
  · intro hcond
    have hmin : state.commitIndex < r.leaderCommit → min r.leaderCommit log'.lastIndex ≤
        max state.commitIndex (r.prevLogIndex + r.entries.length) := by
      intro hlt
      rcases hlast with ⟨-, hlast⟩ | ⟨hno, hlast⟩
      · omega
      · rcases hcond with hcond | hcond | hcond
        · omega
        · omega
        · exact absurd hcond hno
    rw [hstate]
    split
    · exact ⟨le_max_left _ _, le_max_left _ _⟩
    · rename_i hlt
      have := hmin (not_le.mp hlt)
      exact ⟨this, max_le_max_left _ this⟩

/-- A heartbeat that has verified the first index only. -/
def earlyHeartbeat : AppendEntriesRequest where
  term := 2
  leaderId := "b"
  prevLogIndex := 1
  prevLogTerm := 1
  leaderCommit := 2

theorem commits_verified_iff_verifiedCommit : ∃ state' log' store',
    PyRaftKv.handleAppendEntries { nodeId := "a" } twoDeletes
        { earlyHeartbeat with leaderCommit := 1 } {} = (.ok ⟨2, true⟩, state', log', store') ∧
      CommitsVerified { earlyHeartbeat with leaderCommit := 1 } { nodeId := "a" } state' := by
  obtain ⟨state', log', store', hrun⟩ : ∃ state' log' store',
      PyRaftKv.handleAppendEntries { nodeId := "a" } twoDeletes
        { earlyHeartbeat with leaderCommit := 1 } {} = (.ok ⟨2, true⟩, state', log', store') :=
    ⟨_, _, _, rfl⟩
  exact ⟨state', log', store', hrun,
    (commits_verified_iff (by decide) hrun rfl).mpr (Or.inl (by decide))⟩

/-- **A suffix the leader did not vouch for is committed and applied.** -/
theorem stale_suffix_committed :
    Contiguous earlyHeartbeat.prevLogIndex earlyHeartbeat.entries ∧
      (PyRaftKv.handleAppendEntries { nodeId := "a" } twoDeletes earlyHeartbeat {}).1 =
        .ok ⟨2, true⟩ ∧
      ¬ CommitsVerified earlyHeartbeat { nodeId := "a" }
        (PyRaftKv.handleAppendEntries { nodeId := "a" } twoDeletes earlyHeartbeat {}).2.1 := by
  refine ⟨by decide, rfl, fun h => ?_⟩
  have := h.commitIndex
  revert this
  decide

/-! ## 2. The merge -/

/-- **The entries `es` are in the log in place of what `log` had above `p`**, and what `log` had
above them stayed or went, as a whole. -/
structure Merged (log log' : RaftLog) (p : Int) (es : List LogEntry) : Prop where
  baseIndex : log'.baseIndex = log.baseIndex
  baseTerm : log'.baseTerm = log.baseTerm
  contiguous : Contiguous log.baseIndex log'.entries
  below : ∀ i ≤ p, log'.get i = log.get i
  window : ∀ e ∈ es, log'.get e.index = some e
  suffix : ∀ i, p + es.length < i →
    log'.get i = if ∃ e ∈ es, log.Conflicts e then none else log.get i

/-- Where an entry of the log with the index and the term of a request's entry is that entry, a
splice is a merge. -/
theorem Spliced.merged {log log' : RaftLog} {p : Int} {es : List LogEntry}
    (hs : Spliced log log' p es)
    (hagree : ∀ e ∈ es, ∀ x, log.get e.index = some x → x.term = e.term → x = e) :
    Merged log log' p es := by
  refine ⟨hs.baseIndex, hs.baseTerm, hs.baseIndex ▸ log'.contiguous, hs.below, fun e he => ?_,
    fun i hi => ?_⟩
  · obtain ⟨e', hget, hterm, rfl | hold⟩ := hs.window e he
    · exact hget
    · rw [hget, hagree e he e' hold hterm]
  · split
    · rename_i hconf
      exact RaftLog.get_above (by rw [hs.cut hconf]; exact hi)
    · rename_i hno
      exact (hs.kept fun e he hc => hno ⟨e, he, hc⟩).2 i hi

/-- **AppendEntries merges the request into the log, exactly.**  The request is refused when its
previous entry does not match; else it is merged, and the answer is a success if what it commits can
be applied. -/
theorem merge_exact {state state' : RaftState} {log log' : RaftLog} {r : AppendEntriesRequest}
    {store store' : KVStore} {result : Except RaftError AppendEntriesResponse}
    (hge : state.currentTerm ≤ r.term) (hwf : Contiguous r.prevLogIndex r.entries)
    (hagree : ∀ e ∈ r.entries, ∀ x, log.get e.index = some x → x.term = e.term → x = e)
    (hrun : PyRaftKv.handleAppendEntries state log r store = (result, state', log', store')) :
    (result = .ok ⟨r.term, false⟩ ↔ log.termAt r.prevLogIndex ≠ some r.prevLogTerm) ∧
      (result = .ok ⟨r.term, true⟩ ↔ log.termAt r.prevLogIndex = some r.prevLogTerm ∧
        (r.leaderCommit ≤ state.commitIndex ∨
          Appliable state log' (min r.leaderCommit log'.lastIndex))) ∧
      (log.termAt r.prevLogIndex ≠ some r.prevLogTerm → log' = log) ∧
      (log.termAt r.prevLogIndex = some r.prevLogTerm →
        Merged log log' r.prevLogIndex r.entries) := by
  by_cases hprev : log.termAt r.prevLogIndex = some r.prevLogTerm
  · obtain ⟨log₁, hs, heq⟩ := handleAppendEntries_splices store hge hprev hwf
    have hok := updateFollowerCommit_ok_iff (state.follow r.term (some r.leaderId)) log₁ store
      r.leaderCommit
    have hterm := (updateFollowerCommit_role (state.follow r.term (some r.leaderId)) log₁ store
      r.leaderCommit).2
    rw [heq] at hrun
    unfold commitAndAnswer at hrun
    split at hrun
    all_goals
      rename_i hupdate
      cases hrun
      rw [hupdate] at hok hterm
    · -- an entry could not be applied
      refine ⟨?_, ?_, fun hne => absurd hprev hne, fun _ => hs.merged hagree⟩
      · simp [hprev]
      · simp only [reduceCtorEq, hprev, true_and, false_iff] at hok ⊢
        exact hok
    · have hterm' : state'.currentTerm = r.term := hterm
      refine ⟨?_, ?_, fun hne => absurd hprev hne, fun _ => hs.merged hagree⟩
      · simp [hprev]
      · rw [hterm']
        exact ⟨fun _ => ⟨hprev, hok.mp rfl⟩, fun _ => rfl⟩
  · rw [handleAppendEntries_mismatch hge hprev] at hrun
    cases hrun
    refine ⟨by simp [hprev], by simp [hprev], fun _ => rfl, fun h => absurd h hprev⟩

/-- A request that replaces the second entry by two others. -/
def replacing : AppendEntriesRequest where
  term := 2
  leaderId := "b"
  prevLogIndex := 1
  prevLogTerm := 1
  entries := [⟨2, 2, ⟨.delete, "k", none⟩⟩, ⟨3, 2, ⟨.delete, "k", none⟩⟩]
  leaderCommit := 2

theorem merge_exact_replacing : ∃ state' log' store',
    PyRaftKv.handleAppendEntries { nodeId := "a" } twoDeletes replacing {} =
        (.ok ⟨2, true⟩, state', log', store') ∧
      Merged twoDeletes log' 1 replacing.entries := by
  obtain ⟨state', log', store', hrun⟩ : ∃ state' log' store',
      PyRaftKv.handleAppendEntries { nodeId := "a" } twoDeletes replacing {} =
        (.ok ⟨2, true⟩, state', log', store') := ⟨_, _, _, rfl⟩
  have hagree : ∀ e ∈ replacing.entries, ∀ x, twoDeletes.get e.index = some x →
      x.term = e.term → x = e := by
    intro e he x hx hterm
    rcases List.mem_cons.mp he with rfl | he
    · cases hx
      cases hterm
    · rw [List.mem_singleton.mp he] at hx
      cases hx
  exact ⟨state', log', store', hrun, (merge_exact (by decide) (by decide) hagree hrun).2.2.2 rfl⟩

/-- A log whose one entry, not committed yet, the state machine does not know. -/
def unknownOperation : RaftLog where
  entries := [⟨1, 1, ⟨.other "INCR" (by decide), "k", none⟩⟩]

/-- A heartbeat that commits it. -/
def committingHeartbeat : AppendEntriesRequest where
  term := 1
  leaderId := "b"
  prevLogIndex := 1
  prevLogTerm := 1
  leaderCommit := 1

/-- **A request that matches may raise**: it commits an entry that the follower had and that cannot
be applied. -/
theorem merge_may_raise :
    Contiguous committingHeartbeat.prevLogIndex committingHeartbeat.entries ∧
      unknownOperation.termAt committingHeartbeat.prevLogIndex =
        some committingHeartbeat.prevLogTerm ∧
      (PyRaftKv.handleAppendEntries { nodeId := "a" } unknownOperation committingHeartbeat {}).1 =
        .error (.valueError "Unknown Raft command: INCR") :=
  ⟨by decide, rfl, rfl⟩

end PyRaftKv
