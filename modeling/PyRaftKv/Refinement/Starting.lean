/-
# Starting from a data directory

A start reads the three files and brings them together: the journal follows the snapshot if a
crash kept it from doing so, the commit index is raised to the snapshot's, and the store is
rebuilt.  Where the files determine a peer the start gives that peer back, and so does another
start if this one crashes on its way (`init_recovers`).
-/
import PyRaftKv.Refinement.Stretch

open Consensus

namespace PyRaftKv

variable {m : Members} {v : NodeId} {d : DataDir} {p : PeerState} {h : Hist}

/-- A log that shows the peer above its base keeps the disk what it says. -/
theorem OnDisk.of_shows {log : RaftLog} (hlog : d.loadLog = .ok log) (hs : Shows log p.log p.base)
    (term : d.savedState.currentTerm = p.term) (vote : d.savedState.votedFor = p.vote)
    (commit : max d.savedState.commitIndex p.base = p.commit)
    (snapshot : Captures d.loadSnapshot p.log p.base) : OnDisk d p := by
  obtain ⟨log', hinst, hs'⟩ := hs.install_kept le_rfl hs.le
  exact ⟨term, vote, commit, snapshot, log, log', hlog, hs.base.le, hinst, hs'⟩

/-- What a start does to the journal, and the effects of it. -/
def recoverLog (journal : RaftLog) (index term : Int) : Except RaftError (RaftLog × List Write) :=
  if index > journal.baseIndex then
    (journal.installSnapshotBoundary index term).map fun log => (log, saveLog log)
  else .ok (journal, [])

/-- **The journal follows the snapshot**, and agrees with it where they have the same boundary. -/
theorem recoverLog_ok (hd : OnDisk d p) (hw : Whole p.log) {journal : RaftLog}
    (hj : d.loadLog = .ok journal) :
    ∃ log ws, recoverLog journal p.base (lastStamp (p.log.take p.base)) = .ok (log, ws) ∧
      journal.baseIndex ≤ p.base ∧
      ¬ ((p.base : Int) = journal.baseIndex ∧
        lastStamp (p.log.take p.base) ≠ journal.baseTerm) ∧
      Shows log p.log p.base ∧ (d.writes ws).loadLog = .ok log ∧
      (d.writes ws).savedState = d.savedState ∧ (d.writes ws).loadSnapshot = d.loadSnapshot ∧
      ws.length ≤ 1 := by
  obtain ⟨journal', log, hj', hle, hinst, hs⟩ := hd.log
  obtain rfl : journal' = journal := Except.ok.inj (hj'.symm.trans hj)
  unfold recoverLog
  by_cases hlt : (p.base : Int) > journal'.baseIndex
  · rw [if_pos hlt, hinst]
    refine ⟨log, saveLog log, rfl, hle, fun hc => ?_, hs, DataDir.loadLog_rewrite hs hw, rfl, rfl,
      le_rfl⟩
    omega
  · rw [if_neg hlt]
    have heq : (p.base : Int) = journal'.baseIndex := by omega
    simp only [RaftLog.installSnapshotBoundary, heq, lt_irrefl, dite_true, dite_false] at hinst
    split_ifs at hinst with hterm
    cases hinst
    exact ⟨journal', [], rfl, hle, fun hc => hterm hc.2, hs, hj, rfl, rfl, Nat.zero_le _⟩

/-- **A start** from files that determine a peer gives that peer back, and a start that crashes
leaves them so. -/
theorem init_recovers (hd : OnDisk d p) (hv : v ∈ m) (hrole : p.role = .follower)
    (hp : p.Sound h v) (hw : Whole p.log) (clock : Clock) :
    ∃ n ws, RaftNode.init v m d clock = ⟨.ok n, ws⟩ ∧ Up m v n (d.writes ws) p h ∧
      n.state.role = .follower ∧ n.replication = none ∧ n.lastReadQuorumTime = none ∧
      ∀ k, OnDisk (d.writes (ws.take k)) p := by
  obtain ⟨journal, log₀, hj, -, -, -⟩ := hd.log
  obtain ⟨log, ws, hrec, hle, hagree, hs, hlog, hstate, hsnap, hlen⟩ := recoverLog_ok hd hw hj
  have hcap := hd.snapshot
  -- the commit index is raised to the snapshot's
  set s₀ := d.loadState v with hs₀
  have hs₀c : s₀.commitIndex = d.savedState.commitIndex := by rw [hs₀, DataDir.loadState_eq]
  have hs₀t : s₀.currentTerm = p.term := by rw [hs₀, DataDir.loadState_eq]; exact hd.term
  have hs₀v : s₀.votedFor = p.vote := by rw [hs₀, DataDir.loadState_eq]; exact hd.vote
  obtain ⟨s₁, ws', hraise, hs₁, hsaved, hlen'⟩ : ∃ (s₁ : RaftState) (ws' : List Write),
      (if s₀.commitIndex < (p.base : Int) then
        ({ s₀ with commitIndex := (p.base : Int) },
          ws ++ saveState { s₀ with commitIndex := (p.base : Int) })
      else (s₀, ws)) = (s₁, ws ++ ws') ∧ s₁ = { s₀ with commitIndex := (p.commit : Int) } ∧
      ((d.writes ws).writes ws').savedState = s₁.persisted ∧
      (ws' = [] ∨ ws' = saveState s₁) := by
    have hc := hd.commit
    split
    · rename_i hlt
      refine ⟨_, saveState _, rfl, ?_, rfl, Or.inr rfl⟩
      rw [show (p.commit : Int) = p.base by omega]
    · rename_i hge
      refine ⟨s₀, [], by rw [List.append_nil], ?_, ?_, Or.inl rfl⟩
      · rw [show (p.commit : Int) = s₀.commitIndex by omega]
      · rw [DataDir.writes_nil, hstate, hs₀, DataDir.loadState_eq]
        rfl
  have hlast : ¬ s₁.commitIndex > log.lastIndex := by
    have := hp.commit_le
    rw [hs.lastIndex, hs₁]
    change ¬ (p.commit : Int) > _
    omega
  -- the store is rebuilt from the snapshot and the committed entries above it
  obtain ⟨store, happ, hstore⟩ := applyCommittedEntries_replays (a := p.base) (c := p.commit)
    { s₁ with lastApplied := (p.base : Int) } (KVStore.restore {} d.loadSnapshot.state) hs hw rfl
      (by rw [hs₁]) le_rfl hp.base_le
    hp.commit_le hcap.state
  have hinit : RaftNode.init v m d clock = ⟨.ok {
      nodeId := v, members := m, snapshot := d.loadSnapshot, log, store
      state := { s₁ with lastApplied := (p.commit : Int), role := .follower, leaderId := none }
      timer := .reset clock.now clock.timeout }, ws ++ ws'⟩ := by
    unfold recoverLog at hrec
    simp only [RaftNode.init, not_not.mpr hv, if_false, hj, hcap.index, hcap.term,
      if_neg (not_lt.mpr hle), if_neg hagree, hrec, ← hs₀, hraise, if_neg hlast, happ]
  have hdisk : d.writes (ws ++ ws') = (d.writes ws).writes ws' := DataDir.writes_append _ _
  have hlog' : ((d.writes ws).writes ws').loadLog = .ok log := by
    rcases hlen' with rfl | rfl
    · exact hlog
    · exact hlog
  have hsnap' : ((d.writes ws).writes ws').loadSnapshot = d.loadSnapshot := by
    rcases hlen' with rfl | rfl
    · exact hsnap
    · exact hsnap
  refine ⟨_, _, hinit, ?_, rfl, rfl, rfl, fun k => ?_⟩
  · refine ⟨rfl, ?_, rfl, hv, ⟨?_, ?_, ?_, ?_, rfl, hs, hstore, hcap⟩, ⟨?_, ?_, ?_⟩,
      (fun hr => nomatch hr), fun r hr => nomatch hr⟩
    · rw [hs₁, hs₀, DataDir.loadState_eq]
    · rw [hs₁]
      exact hs₀t.symm
    · rw [hs₁]
      exact hs₀v.symm
    · rw [hrole]
      rfl
    · rw [hs₁]
    · rw [hdisk, hsaved]
      rfl
    · rw [hdisk, hsnap']
    · rw [hdisk, hlog']
  · -- a crash before, between or after the two effects
    rw [List.take_append, DataDir.writes_append]
    rcases Nat.lt_or_ge k ws.length with hk | hk
    · obtain rfl : k = 0 := by omega
      simpa using hd
    rw [List.take_of_length_le hk]
    have hmid : OnDisk (d.writes ws) p := .of_shows hlog hs (hstate ▸ hd.term) (hstate ▸ hd.vote)
      (hstate ▸ hd.commit) (hsnap ▸ hcap)
    rcases hlen' with rfl | rfl
    · simpa using hmid
    rcases Nat.eq_zero_or_pos (k - ws.length) with hz | hpos
    · rw [hz]
      exact hmid
    · rw [List.take_of_length_le (Nat.succ_le_of_lt hpos)]
      refine .of_shows hlog' hs ?_ ?_ ?_ (hsnap'.symm ▸ hcap)
      · rw [hsaved, hs₁]
        exact hs₀t
      · rw [hsaved, hs₁]
        exact hs₀v
      · have := hp.base_le
        rw [hsaved, hs₁]
        change max (p.commit : Int) p.base = p.commit
        omega

end PyRaftKv
