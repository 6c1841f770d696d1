/-
# Leading: replication, commitment, new entries, compaction

What a leader sends is cut out of its own log, so it is cut out of the log of the leader of its
term (`Appends`, `Installs`), and stays so whatever that log becomes.  A success it records is an
acknowledgement, and the majority its commit index rests on is a quorum of acknowledgements.

`create_snapshot` is here as well, though any member may run it: it too only looks at its own log.
-/
import PyRaftKv.Refinement.Elections

open Consensus

namespace PyRaftKv

variable {m : Members} {v : NodeId} {n : RaftNode} {d : DataDir} {p : PeerState} {h h' : Hist}

/-! ## 1. What a leader sends -/

/-- The request carries the entries from `prev` to `last` of the log of its term's leader, and a
commit index up to which that leader knew it decided. -/
structure AppendsAt (h : Hist) (r : AppendEntriesRequest) (prev last commit : Nat) : Prop where
  elected : h.Elected r.term
  prev_le : prev ≤ last
  commit_le : commit ≤ last
  last_le : last ≤ (h.leaderLog r.term).length
  prevIndex : r.prevLogIndex = prev
  prevTerm : r.prevLogTerm = lastStamp ((h.leaderLog r.term).take prev)
  entries : r.entries = ((h.leaderLog r.term).take last).drop prev
  leaderCommit : r.leaderCommit = commit
  decided : h.DecidedBy r.term ((h.leaderLog r.term).take commit)

def Appends (h : Hist) (r : AppendEntriesRequest) : Prop :=
  ∃ prev last commit, AppendsAt h r prev last commit

/-- A request that carries a decided part of that log, applied. -/
def Installs (h : Hist) (r : InstallSnapshotRequest) : Prop :=
  h.Elected r.term ∧ ∃ k : Nat, k ≤ (h.leaderLog r.term).length ∧
    r.lastIncludedIndex = k ∧ r.lastIncludedTerm = lastStamp ((h.leaderLog r.term).take k) ∧
    Replays ((h.leaderLog r.term).take k) ⟨r.state⟩ ∧
    h.Decided ((h.leaderLog r.term).take k)

theorem Appends.extend {Q : Quorums NodeId} (hx : h.Extends h') (hs : h.Sound Q)
    {r : AppendEntriesRequest} (hr : Appends h r) : Appends h' r := by
  obtain ⟨prev, last, commit, hr⟩ := hr
  have hel := hr.elected
  have hll := hr.last_le
  refine ⟨prev, last, commit, hx.elected hel, hr.prev_le, hr.commit_le,
    hll.trans (hx.leader_isPrefix hel).length_le, hr.prevIndex, ?_, ?_, hr.leaderCommit, ?_⟩
  · rw [hx.take_leader hel (hr.prev_le.trans hll), hr.prevTerm]
  · rw [hx.take_leader hel hll, hr.entries]
  · rw [hx.take_leader hel (hr.commit_le.trans hll)]
    exact hx.decidedBy hs hr.decided

theorem Installs.extend {Q : Quorums NodeId} (hx : h.Extends h') (hs : h.Sound Q)
    {r : InstallSnapshotRequest} (hr : Installs h r) : Installs h' r := by
  obtain ⟨hel, k, hk, hidx, hterm, hrep, hdec⟩ := hr
  refine ⟨hx.elected hel, k, hk.trans (hx.leader_isPrefix hel).length_le, hidx, ?_, ?_, ?_⟩
  · rw [hx.take_leader hel hk, hterm]
  · rw [hx.take_leader hel hk]
    exact hrep
  · rw [hx.take_leader hel hk]
    exact hx.decided hs hdec

/-- The last index a replication request brings its follower to. -/
def ReplicationRequest.covers : ReplicationRequest → Int
  | .appendEntries r => r.lastReplicated
  | .installSnapshot r => r.lastIncludedIndex

def ReplicationRequest.Sent (h : Hist) : ReplicationRequest → Prop
  | .appendEntries r => Appends h r
  | .installSnapshot r => Installs h r

/-- `f` has acknowledged what the request covers. -/
def ReplicationRequest.Acked (h : Hist) (f : NodeId) (r : ReplicationRequest) : Prop :=
  ∃ k : Nat, r.covers = k ∧ (f, r.term, k) ∈ h.acks

/-- A window that ends at `last` covers `last`. -/
theorem AppendsAt.lastReplicated {r : AppendEntriesRequest} {prev last commit : Nat}
    (hr : AppendsAt h r prev last commit) (hl : Whole (h.leaderLog r.term)) :
    r.lastReplicated = last := by
  have hpl := hr.prev_le
  have hll := hr.last_le
  unfold AppendEntriesRequest.lastReplicated
  rcases hpl.lt_or_eq with hlt | rfl
  · have hlast : r.entries.getLast? = (h.leaderLog r.term)[last - 1]? := by
      rw [hr.entries, List.getLast?_eq_getElem?, List.getElem?_drop, List.length_drop,
        List.length_take_of_le hll, List.getElem?_take, if_pos (by omega)]
      congr 1
      omega
    obtain ⟨e, he⟩ : ∃ e, (h.leaderLog r.term)[last - 1]? = some e :=
      ⟨_, List.getElem?_eq_getElem (show last - 1 < (h.leaderLog r.term).length by omega)⟩
    rw [hlast, he]
    have := hl.index he
    change e.index = last
    omega
  · have : r.entries = [] := by
      rw [hr.entries]
      exact List.drop_eq_nil_of_le (List.length_take_le _ _)
    rw [this, hr.prevIndex]
    rfl

/-! ## 2. Replication to one follower -/

/-- A leader's log is the log on record for its term. -/
theorem Live.leading (hl : Live m v n d p h) (hlead : n.state.role = .leader) :
    h.Elected n.state.currentTerm ∧ p.log = h.leaderLog n.state.currentTerm ∧
      h.DecidedBy n.state.currentTerm (p.log.take p.commit) := by
  have hm := hl.mirrors
  obtain ⟨e, he, het, -, hlog, hdec⟩ := hl.peer.leader (by rw [hm.role, hlead]; rfl)
  rw [hm.term] at het hlog hdec
  exact ⟨⟨e, he, het⟩, hlog, hdec⟩

/-- For a follower it knows, the leader cuts a request out of its log above its boundary. -/
theorem buildRequest_run {r : LeaderReplication} {state : RaftState} {log : RaftLog}
    {l : List LogEntry} {b prev : Nat} {f : NodeId} (hs : Shows log l b) (hf : f ∈ r.followers)
    (hnext : r.nextIndex f = (prev : Int) + 1) (hb : b ≤ prev) (hle : prev ≤ l.length)
    (commit : Int) : r.buildRequest state log f (some commit) = .ok
      { term := state.currentTerm
        leaderId := state.nodeId
        prevLogIndex := prev
        prevLogTerm := lastStamp (l.take prev)
        entries := l.drop prev
        leaderCommit := commit } := by
  have hnb : ¬ r.nextIndex f ≤ log.baseIndex := by
    rw [hnext, hs.base]
    omega
  have hterm : log.termAt (r.nextIndex f - 1) = some (lastStamp (l.take prev)) := by
    rw [hnext, Int.add_sub_cancel]
    exact hs.termAt hb hle
  have hents : log.entriesFrom (r.nextIndex f) = .ok (l.drop prev) := by
    rw [hnext]
    exact hs.entriesFrom hb
  unfold LeaderReplication.buildRequest
  simp only [hf, not_true_eq_false, if_false, hnb, hterm, hents, Option.getD_some]
  rw [hnext, Int.add_sub_cancel]
  rfl

/-- **One turn of the loop, up to the call**: the node is unchanged, the request is cut out of its
log, and for a follower there is nothing to raise. -/
theorem replicateBuild_sent (hl : Live m v n d p h) (f : NodeId) :
    ∃ result, RaftNode.replicateBuild f n = ⟨result, n, []⟩ ∧
      (∀ request, result = .ok (some request) →
        n.state.role = .leader ∧ request.term = n.state.currentTerm ∧ request.Sent h) ∧
      (f ∈ m.others v → ∃ request, result = .ok request) := by
  have hm := hl.mirrors
  simp only [RaftNode.replicateBuild, NodeM.bind_run, NodeM.get_run, NodeM.andThen_ok,
    NodeM.behind_nil, NodeM.ite_run, NodeM.pure_run]
  by_cases hlead : n.state.role = .leader
  swap
  · rw [if_pos hlead]
    exact ⟨_, rfl, by simp, fun _ => ⟨_, rfl⟩⟩
  rw [if_neg (not_not.mpr hlead)]
  obtain ⟨hel, hlog, hdec⟩ := hl.leading hlead
  rcases hr : n.replication with _ | r
  · exact ⟨_, rfl, by simp, fun _ => ⟨_, rfl⟩⟩
  have htab := hl.table r hr
  have hbase := hl.peer.base_le
  have hcommit := hl.peer.commit_le
  simp only [NodeM.ite_run]
  split
  · -- a snapshot
    split
    · -- the snapshot is that of the boundary
      rename_i hnot
      exfalso
      refine hnot.elim (fun h => h ?_) fun h => h ?_
      · rw [hm.snapshot.index, hm.log.base]
      · rw [hm.snapshot.term, hm.log.baseTerm]
    · refine ⟨_, rfl, ?_, fun _ => ⟨_, rfl⟩⟩
      rintro request ⟨⟩
      refine ⟨hlead, rfl, hel, p.base, ?_, hm.snapshot.index, ?_, ?_, ?_⟩
      · rw [← hlog]
        omega
      · rw [← hlog]
        exact hm.snapshot.term
      · rw [← hlog]
        exact hm.snapshot.state
      · rw [← hlog]
        exact hdec.decided.of_isPrefix (List.take_prefix_take_left hbase)
  · rename_i hnext
    rw [hm.log.base] at hnext
    obtain ⟨prev, hprev⟩ : ∃ prev : Nat, r.nextIndex f = prev + 1 :=
      ⟨(r.nextIndex f - 1).toNat, by have := htab.next_pos f; omega⟩
    have hle : prev ≤ p.log.length := by have := htab.next_le f; omega
    by_cases hf : f ∈ r.followers
    · rw [buildRequest_run hm.log hf hprev (by omega) hle]
      refine ⟨_, rfl, ?_, fun _ => ⟨_, rfl⟩⟩
      rintro request ⟨⟩
      refine ⟨hlead, rfl, prev, p.log.length, p.commit, hel, hle, hcommit, ?_, rfl, ?_, ?_,
        hm.commit, ?_⟩
      · rw [hlog]
      · change lastStamp _ = _
        rw [hlog]
      · change p.log.drop prev = _
        rw [← hlog, List.take_length]
      · rw [← hlog]
        exact hdec
    · have hbuild : r.buildRequest n.state n.log f (some n.state.commitIndex) =
          .error (.valueError s!"Unknown follower: {f}") := by
        unfold LeaderReplication.buildRequest
        simp only [hf, not_false_eq_true, if_true]
        rfl
      rw [hbuild]
      exact ⟨_, rfl, by simp, fun hmem => absurd (htab.followers ▸ hmem) hf⟩

/-- What a follower acknowledged in the leader's term, the leader has. -/
theorem Live.acked_le (hl : Live m v n d p h) (hlead : n.state.role = .leader) {f : NodeId}
    {k : Nat} (hak : (f, n.state.currentTerm, k) ∈ h.acks) : k ≤ p.log.length := by
  rw [(hl.leading hlead).2.1]
  exact (hl.history.ack_elected f _ k hak).2

/-- **Recording a success** keeps the table: everything below an acknowledged index is
acknowledged. -/
theorem Table.advance {r : LeaderReplication} (hl : Live m v n d p h) (ht : Table m v r p h)
    (hlead : n.state.role = .leader) {f : NodeId} {k : Nat}
    (hak : (f, n.state.currentTerm, k) ∈ h.acks) : Table m v (r.advance f k) p h := by
  have hk := hl.acked_le hlead hak
  have hmatch : ∀ g, (r.advance f k).matchIndex g =
      if g = f then max (r.matchIndex f) k else r.matchIndex g := fun g =>
    Function.update_apply _ _ _ _
  have hnext : ∀ g, (r.advance f k).nextIndex g =
      if g = f then max (r.matchIndex f) k + 1 else r.nextIndex g := fun g =>
    Function.update_apply _ _ _ _
  have hm0 := ht.match_nonneg f
  have hml := ht.match_le f
  refine ⟨ht.followers, fun g => ?_, fun g => ?_, fun g => ?_, fun g => ?_, ?_⟩
  · rw [hnext]
    split
    · omega
    · exact ht.next_pos g
  · rw [hnext]
    split
    · omega
    · exact ht.next_le g
  · rw [hmatch]
    split
    · omega
    · exact ht.match_nonneg g
  · rw [hmatch]
    split
    · omega
    · exact ht.match_le g
  · intro hr g i e hi he hte
    rw [hmatch] at hi
    split at hi
    · rename_i hgf
      subst hgf
      rcases le_total (k : Int) (r.matchIndex g) with hle | hle
      · exact ht.acked hr g i e (by omega) he hte
      · rw [hl.mirrors.term]
        exact hl.history.ack_below g _ k (i + 1) hak (by omega)
    · exact ht.acked hr g i e hi he hte

theorem Table.recordFailure {r : LeaderReplication} (ht : Table m v r p h) (f : NodeId) :
    Table m v { r with nextIndex := Function.update r.nextIndex f (max 1 (r.nextIndex f - 1)) }
      p h where
  followers := ht.followers
  next_pos g := by
    change 1 ≤ Function.update r.nextIndex f _ g
    rw [Function.update_apply]
    split
    · omega
    · exact ht.next_pos g
  next_le g := by
    change Function.update r.nextIndex f _ g ≤ _
    have := ht.next_le f
    rw [Function.update_apply]
    split
    · omega
    · exact ht.next_le g
  match_nonneg := ht.match_nonneg
  match_le := ht.match_le
  acked := ht.acked

/-- A node that leads in the request's term and reads a term that is not newer stays as it is, but
for its table. -/
theorem Lawful.ofTable {lost : Nat → Prop} (hl : Live m v n d p h) {r : LeaderReplication}
    (ht : Table m v r p h) :
    Lawful m v h p d lost { n with replication := some r } [] h (withState p n.state) := by
  rw [hl.mirrors.withState]
  exact .quiet hl (hl.toUp.setReplication _ (by rintro r' ⟨⟩; exact ht))

/-- A leader that reads a newer term steps down. -/
theorem stepDown_lawful (hl : Live m v n d p h) {term : Int} (hnew : n.state.currentTerm < term) :
    Lawful m v h p d (fun _ => False)
      { n with state := n.state.follow term none, replication := none }
      (saveState (n.state.follow term none)) h (withState p (n.state.follow term none)) :=
  .of_single hl le_rfl (follow_moves hl.mirrors hnew.le none) hl.whole (Or.inl rfl)
    (.of_eq rfl) (Keeps.refl _ _) ((hl.toUp.follow term none).setReplication none (by simp))

/-- **One turn of the loop, after the call.** -/
theorem replicateResponse_lawful (hl : Live m v n d p h) {f : NodeId}
    {request : ReplicationRequest} (term : Int) {success : Bool}
    (hak : success = true → request.Acked h f) :
    ∃ result n' s ws, RaftNode.replicateResponse f request term success n = ⟨result, n', ws⟩ ∧
      n'.state = s ∧
      Lawful m v h p d (fun _ => False) n' (ws.map (·.write)) h (withState p s) ∧
      (result = .ok (some true) → success = true ∧ n.state.currentTerm = request.term ∧
        s = n.state) := by
  have hm := hl.mirrors
  have hquiet : Lawful m v h p d (fun _ => False) n [] h (withState p n.state) := by
    rw [hm.withState]
    exact .quiet hl hl.toUp
  simp only [RaftNode.replicateResponse, NodeM.bind_run, NodeM.get_run, NodeM.andThen_ok,
    NodeM.behind_nil]
  rcases hr : n.replication with _ | r
  · exact ⟨_, n, n.state, [], rfl, rfl, hquiet, by simp⟩
  have htab := hl.table r hr
  simp only [NodeM.ite_run, NodeM.pure_run]
  by_cases hstale : n.state.role ≠ .leader ∨ n.state.currentTerm ≠ request.term
  · rw [if_pos hstale]
    exact ⟨_, n, n.state, [], rfl, rfl, hquiet, by simp⟩
  rw [if_neg hstale]
  have hlead : n.state.role = .leader := by
    by_contra hne
    exact hstale (Or.inl hne)
  have hterm : n.state.currentTerm = request.term := by
    by_contra hne
    exact hstale (Or.inr hne)
  by_cases hnew : term > n.state.currentTerm
  · rw [if_pos hnew]
    simp only [RaftNode.becomeFollower, RaftNode.persistState, NodeM.bind_run, NodeM.get_run,
      NodeM.andThen_ok, RaftState.becomeFollower_ok none hnew.le, NodeM.lift_ok_run,
      NodeM.modify_run, NodeM.persist_run, NodeM.pure_run, NodeM.behind_mk]
    exact ⟨_, _, _, (saveState _).map fun w => ⟨_, w⟩, rfl, rfl, stepDown_lawful hl hnew, by simp⟩
  rw [if_neg hnew]
  have hrecord : success = true → ∃ k : Nat, request.covers = k ∧
      Table m v (r.advance f k) p h := by
    intro hs
    obtain ⟨k, hk, hmem⟩ := hak hs
    exact ⟨k, hk, htab.advance hl hlead (hterm ▸ hmem)⟩
  rcases request with request | request
  all_goals simp only [NodeM.ite_run, NodeM.bind_run, NodeM.pure_run]
  · cases success with
    | true =>
      obtain ⟨k, hk, htab'⟩ := hrecord rfl
      have hk' : request.lastReplicated = k := hk
      simp only [if_true, LeaderReplication.recordSuccess, hk']
      by_cases hf : f ∈ r.followers
      · simp only [hf, not_true_eq_false, if_false, NodeM.lift_ok_run, NodeM.andThen_ok,
          NodeM.behind_nil]
        exact ⟨_, _, n.state, [], rfl, rfl, .ofTable hl htab', fun _ => ⟨trivial, hterm, rfl⟩⟩
      · simp only [hf, not_false_eq_true, if_true, NodeM.lift_error_run, NodeM.andThen_error]
        exact ⟨_, n, n.state, [], rfl, rfl, hquiet, by simp⟩
    | false =>
      simp only [Bool.false_eq_true, if_false, LeaderReplication.recordFailure]
      by_cases hf : f ∈ r.followers
      · simp only [hf, not_true_eq_false, if_false, NodeM.lift_ok_run, NodeM.andThen_ok,
          NodeM.behind_nil]
        exact ⟨_, _, n.state, [], rfl, rfl, .ofTable hl (htab.recordFailure f), by simp⟩
      · simp only [hf, not_false_eq_true, if_true, NodeM.lift_error_run, NodeM.andThen_error]
        exact ⟨_, n, n.state, [], rfl, rfl, hquiet, by simp⟩
  · cases success with
    | true =>
      obtain ⟨k, hk, htab'⟩ := hrecord rfl
      have hk' : request.lastIncludedIndex = k := hk
      simp only [Bool.not_true, Bool.false_eq_true, if_false,
        LeaderReplication.recordSnapshotSuccess, hk']
      by_cases hf : f ∈ r.followers
      · simp only [hf, not_true_eq_false, if_false, NodeM.lift_ok_run, NodeM.andThen_ok,
          NodeM.behind_nil]
        exact ⟨_, _, n.state, [], rfl, rfl, .ofTable hl htab', fun _ => ⟨trivial, hterm, rfl⟩⟩
      · simp only [hf, not_false_eq_true, if_true, NodeM.lift_error_run, NodeM.andThen_error]
        exact ⟨_, n, n.state, [], rfl, rfl, hquiet, by simp⟩
    | false =>
      rw [if_pos (by rfl)]
      exact ⟨_, n, n.state, [], rfl, rfl, hquiet, by simp⟩

/-! ## 3. Commitment -/

/-- The `k`-th value in descending order has at least `k + 1` values as large as itself. -/
theorem count_of_sorted {xs : List Int} {k : Nat} {x : Int}
    (hx : (xs.insertionSort (· ≥ ·))[k]? = some x) : k + 1 ≤ xs.countP (x ≤ ·) := by
  set s := xs.insertionSort (· ≥ ·) with hs
  obtain ⟨hk, hxk⟩ := List.getElem?_eq_some_iff.mp hx
  have hsorted : s.Pairwise (· ≥ ·) := List.pairwise_insertionSort _ xs
  have hall : ∀ y ∈ s.take (k + 1), decide (x ≤ y) = true := by
    intro y hy
    obtain ⟨i, hi⟩ := List.mem_iff_getElem?.mp hy
    obtain ⟨hik, rfl⟩ := List.getElem?_eq_some_iff.mp hi
    rw [List.length_take] at hik
    rw [List.getElem_take, decide_eq_true_eq, ← hxk]
    rcases (show i ≤ k by omega).lt_or_eq with hlt | rfl
    · exact List.pairwise_iff_getElem.mp hsorted i k (by omega) hk hlt
    · exact le_rfl
  calc k + 1 = (s.take (k + 1)).length := by rw [List.length_take]; omega
    _ = (s.take (k + 1)).countP (x ≤ ·) := (List.countP_eq_length.mpr hall).symm
    _ ≤ s.countP (x ≤ ·) := (List.take_sublist _ _).countP_le
    _ = xs.countP (x ≤ ·) := (List.perm_insertionSort _ xs).countP_eq _

/-- The followers whose match index reaches `k`. -/
def LeaderReplication.reaching (r : LeaderReplication) (k : Int) : List NodeId :=
  r.followers.filter fun f => k ≤ r.matchIndex f

/-- **The commit rule**: the commit index stays, or moves up to an entry of the leader's own term
that a quorum reaches, the leader with it. -/
theorem advanceCommitIndex_cases (hl : Live m v n d p h) (r : LeaderReplication) :
    r.advanceCommitIndex n.state n.log n.members = n.state.commitIndex ∨
      ∃ (i : Nat) (e : LogEntry),
        r.advanceCommitIndex n.state n.log n.members = i + 1 ∧ p.commit ≤ i ∧
        p.log[i]? = some e ∧ e.term = n.state.currentTerm ∧
        m.quorumSize ≤ (v :: r.reaching (i + 1)).length := by
  unfold LeaderReplication.advanceCommitIndex
  rcases hx : (r.replicatedIndexes n.log)[n.members.size / 2]? with _ | x
  · exact Or.inl rfl
  simp only
  split
  · exact Or.inl rfl
  rename_i hgt
  rcases hg : n.log.get x with _ | e
  · exact Or.inl rfl
  simp only
  split
  · exact Or.inl rfl
  rename_i hterm
  obtain ⟨i, rfl, -, hi⟩ := hl.mirrors.log.get_eq_some.mp hg
  refine Or.inr ⟨i, e, rfl, ?_, hi, not_not.mp hterm, ?_⟩
  · rw [hl.mirrors.commit] at hgt
    omega
  · have hcount := count_of_sorted hx
    have hlast : (i : Int) + 1 ≤ n.log.lastIndex := by
      rw [hl.mirrors.log.lastIndex]
      have := (List.getElem?_eq_some_iff.mp hi).1
      omega
    rw [List.countP_cons_of_pos (by simpa using hlast), List.countP_map,
      List.countP_eq_length_filter] at hcount
    rw [hl.members] at hcount
    exact hcount

/-- The members that reach an entry of the leader's own term, the leader with them, are a quorum
that has acknowledged it. -/
theorem reaching_quorum (hl : Live m v n d p h) {r : LeaderReplication} (ht : Table m v r p h)
    {i : Nat} (hq : m.quorumSize ≤ (v :: r.reaching (i + 1)).length) :
    m.quorums.isQuorum {u | u ∈ v :: r.reaching (i + 1)} := by
  have hsub : ∀ u ∈ r.reaching (i + 1), u ∈ m ∧ u ≠ v := by
    intro u hu
    have := List.mem_of_mem_filter hu
    rw [ht.followers] at this
    exact Members.mem_others.mp this
  refine Members.isQuorum (List.nodup_cons.mpr ⟨fun hv => (hsub v hv).2 rfl, ?_⟩ ) ?_ hq
  · unfold LeaderReplication.reaching
    rw [ht.followers]
    exact (m.nodup.filter _).filter _
  · intro u hu
    rcases List.mem_cons.mp hu with rfl | hu
    · exact hl.member
    · exact (hsub u hu).1

/-- **`replicate_log`, after its round**: nothing, or a decision that rests on a quorum of
acknowledgements, durable before it is applied. -/
theorem replicateLogFinish_lawful (hl : Live m v n d p h) :
    (RaftNode.replicateLogFinish n = ⟨.ok (), n, []⟩) ∨
    ∃ (n' : RaftNode) (s : RaftState) (h' : Hist) (k : Nat) (R : Set NodeId),
      RaftNode.replicateLogFinish n =
        ⟨.ok (), n', (saveState s).map fun w => ⟨{ n with state := s }, w⟩⟩ ∧
      Lawful m v h p d (fun _ => False) n' (saveState s) h' { p with commit := k } ∧
      (n.state.role = .leader ∧ n' = { n with state := n'.state, store := n'.store } ∧
        n'.state = { n.state with commitIndex := k, lastApplied := k }) ∧
      (p.commit < k ∧ k ≤ p.log.length) ∧
      h'.decisions = insert ⟨p.term, k, R⟩ h.decisions := by
  have hm := hl.mirrors
  simp only [RaftNode.replicateLogFinish, NodeM.bind_run, NodeM.get_run, NodeM.andThen_ok,
    NodeM.behind_nil]
  rcases hr : n.replication with _ | r
  · exact Or.inl rfl
  have htab := hl.table r hr
  simp only [NodeM.ite_run, NodeM.bind_run, NodeM.pure_run, NodeM.modify_run, NodeM.andThen_ok,
    NodeM.behind_nil]
  by_cases hlead : n.state.role = .leader
  swap
  · rw [if_pos hlead]
    exact Or.inl rfl
  rw [if_neg (not_not.mpr hlead)]
  obtain ⟨hel, hlog, hdec⟩ := hl.leading hlead
  have hprole : p.role = .leader := by rw [hm.role, hlead]; rfl
  rcases advanceCommitIndex_cases hl r with hsame | ⟨i, e, hadv, hci, hi, hterm, hq⟩
  · rw [hsame, if_neg (not_not.mpr rfl)]
    exact Or.inl rfl
  · right
    rw [hadv, if_pos (by rw [hm.commit]; omega)]
    have hilen : i < p.log.length := (List.getElem?_eq_some_iff.mp hi).1
    have hpt : p.log = h.leaderLog p.term := by rw [hm.term]; exact hlog
    -- the leader acknowledges its own log, and then decides
    have hack := Move.ack (Q := m.quorums) (v := v) (h := h) (p := p) (i + 1)
      (by rw [hm.term]; exact hel) (by rw [← hpt]; omega)
      (by rw [History.Holds, ← hpt]; exact List.take_prefix _ _)
    set h₁ : Hist := { h with acks := h.acks ∪ {a | ∃ j ≤ i + 1, a = (v, p.term, j)} } with hh₁
    have hdecide := Move.decide (Q := m.quorums) (v := v) (h := h₁) (p := p) (i + 1)
      {u | u ∈ v :: r.reaching (i + 1)} e hprole (reaching_quorum hl htab hq)
      (fun u hu => by
        rcases List.mem_cons.mp hu with rfl | hu
        · exact Or.inr ⟨i + 1, le_rfl, rfl⟩
        · refine Or.inl (htab.acked hprole u i e ?_ hi (hterm.trans hm.term.symm))
          simpa using (List.mem_filter.mp hu).2)
      (Nat.succ_pos _) (by omega) hi (hterm.trans hm.term.symm)
    have hmoves := hack.moves.tail hdecide
    set h₂ : Hist := { h₁ with
      decisions := insert ⟨p.term, i + 1, {u | u ∈ v :: r.reaching (i + 1)}⟩ h₁.decisions } with hh₂
    -- what is committed is applied
    obtain ⟨store', happ, hrep⟩ := applyCommittedEntries_replays (c := i + 1)
      { n.state with commitIndex := (i : Int) + 1 } n.store hm.log hl.log_whole hm.applied
      (by push_cast; rfl) hl.peer.base_le (by omega) (by omega) hm.store
    set s : RaftState := { n.state with commitIndex := (i : Int) + 1 } with hs
    refine ⟨{ n with state := { s with lastApplied := (i + 1 : Nat) }, store := store' }, s, h₂,
      i + 1, _, ?_, ?_, ⟨hlead, by rw [← hr], by simp [hs]⟩, ⟨by omega, by omega⟩, rfl⟩
    · simp only [RaftNode.persistState, NodeM.bind_run, NodeM.get_run, NodeM.andThen_ok,
        NodeM.persist_run, RaftNode.applyCommitted, happ, NodeM.behind_mk, List.append_nil,
        List.nil_append, ← hr]
    · refine .of_single hl le_rfl hmoves hl.whole (Or.inl rfl) (.of_eq rfl) (Keeps.refl _ _) ?_
      have hup := hl.toUp
      exact {
        id := hup.id
        stateId := hup.stateId
        members := hup.members
        member := hup.member
        mirrors := {
          term := hm.term
          vote := hm.vote
          role := hm.role
          commit := by push_cast; rfl
          applied := rfl
          log := hm.log
          store := hrep
          snapshot := hm.snapshot }
        saved := ⟨rfl, hup.saved.snapshot, hup.saved.log⟩
        votes := fun hc => by simp [hs, hlead] at hc
        table := fun r' hr' => by
          have : Table m v r' p h₂ := (hup.table r' hr').extend Set.subset_union_left
          exact ⟨this.followers, this.next_pos, this.next_le, this.match_nonneg, this.match_le,
            this.acked⟩ }

/-! ## 4. New entries -/

/-- **A leader's append** of valid entries of its own term, any number of them. -/
theorem append_moves (hl : Live m v n d p h) (hlead : n.state.role = .leader)
    {es : List LogEntry} (hw : Whole (p.log ++ es)) (ht : ∀ e ∈ es, e.term = n.state.currentTerm) :
    ∃ h', Moves m.quorums v h p h' { p with log := p.log ++ es } ∧
      (∀ t, Whole (h'.leaderLog t)) ∧
      h'.elections = h.elections ∧ h'.decisions = h.decisions ∧ h'.ballots = h.ballots ∧
      h'.acks = h.acks := by
  have hm := hl.mirrors
  refine ⟨_, (Move.append es (by rw [hm.role, hlead]; rfl) fun x hx => ?_).moves, fun t => ?_,
    rfl, rfl, rfl, rfl⟩
  · rw [hm.term]
    exact ht x hx
  · change Whole (Function.update h.leaderLog p.term _ t)
    rw [Function.update_apply]
    split
    · exact hw
    · exact hl.whole t

/-- `[self.log.append(term, command) for command in commands]`, through a window. -/
theorem appendCommands_shows {term : Int} (ht : 0 < term) :
    ∀ (commands : List RaftCommand) {log : RaftLog} {l : List LogEntry} {b : Nat},
    Shows log l b → Whole l →
    (∀ c ∈ commands, RaftNode.validateCommand c = .ok ()) →
    ∃ es log', RaftNode.appendCommands term commands log = .ok (es, log') ∧
      Shows log' (l ++ es) b ∧ Whole (l ++ es) ∧ (∀ e ∈ es, e.term = term) ∧
      es.map (·.command) = commands := by
  intro commands
  induction commands with
  | nil =>
    intro log l b hs hw _
    exact ⟨[], log, rfl, by simpa using hs, by simpa using hw, by simp, rfl⟩
  | cons c cs ih =>
    intro log l b hs hw hv
    obtain ⟨log₁, happ, hs₁⟩ := hs.append ht.le c
    have hw₁ : Whole (l ++ [⟨l.length + 1, term, c⟩]) :=
      hw.snoc rfl ht (hv c List.mem_cons_self)
    obtain ⟨es, log', hrest, hs', hw', hes, hcs⟩ := ih hs₁ hw₁ fun c hc =>
      hv c (List.mem_cons_of_mem _ hc)
    refine ⟨⟨l.length + 1, term, c⟩ :: es, log', ?_, by rwa [List.append_cons],
      by rwa [List.append_cons], ?_, by simp [hcs]⟩
    · simp only [RaftNode.appendCommands, happ, bind, Except.bind, hrest]
      rfl
    · intro e he
      rcases List.mem_cons.mp he with rfl | he
      · rfl
      · exact hes e he

/-- The errors with which `submit_commands` rejects its commands. -/
def RaftError.rejects : RaftError → Bool
  | .notLeaderError _ => true
  | .leadershipTransferInProgressError _ => true
  | .valueError _ => true
  | _ => false

theorem validateCommand_rejects {command : RaftCommand} {e : RaftError}
    (hrun : RaftNode.validateCommand command = .error e) : e.rejects = true := by
  unfold RaftNode.validateCommand at hrun
  split at hrun
  · split at hrun <;> cases hrun
    rfl
  · cases hrun
  · cases hrun
    rfl

/-- The first command that fails its check ends the loop. -/
theorem forM_validateCommand_cons (c : RaftCommand) (cs : List RaftCommand) :
    (c :: cs).forM RaftNode.validateCommand =
      match RaftNode.validateCommand c with
      | .error e => .error e
      | .ok _ => cs.forM RaftNode.validateCommand := by
  change (RaftNode.validateCommand c >>= fun _ => cs.forM RaftNode.validateCommand) = _
  rcases RaftNode.validateCommand c with e | u
  · rfl
  · rfl

theorem forM_validateCommand_rejects {e : RaftError} : ∀ {commands : List RaftCommand},
    commands.forM RaftNode.validateCommand = .error e → e.rejects = true
  | c :: cs, hrun => by
    rw [forM_validateCommand_cons] at hrun
    rcases hc : RaftNode.validateCommand c with e' | u
    · rw [hc] at hrun
      cases hrun
      exact validateCommand_rejects hc
    · rw [hc] at hrun
      exact forM_validateCommand_rejects hrun

/-- `submit_commands` checks every command before it appends any. -/
theorem forM_validateCommand : ∀ {commands : List RaftCommand},
    commands.forM RaftNode.validateCommand = .ok () →
    ∀ c ∈ commands, RaftNode.validateCommand c = .ok ()
  | [], _, _, hc => by cases hc
  | c :: cs, h, c', hc' => by
    rw [forM_validateCommand_cons] at h
    rcases hc : RaftNode.validateCommand c with e | u
    · rw [hc] at h
      cases h
    · rw [hc] at h
      rcases List.mem_cons.mp hc' with rfl | hc'
      · exact hc
      · exact forM_validateCommand h c' hc'

section Append

variable {es : List LogEntry}

/-- The journal with new entries at its end. -/
theorem append_journal (hl : Live m v n d p h) (hw : Whole (p.log ++ es)) :
    ∃ log', Saved (d.writes (appendLogEntries es)) { n with log := log' } ∧
      Shows log' (p.log ++ es) p.base := by
  obtain ⟨log', hd, hs', hst, hsn⟩ := DataDir.writes_appendLogEntries es hl.saved.log
    hl.mirrors.log hw.contiguous
  exact ⟨log', ⟨hst.trans hl.saved.state, hsn.trans hl.saved.snapshot, hd⟩, hs'⟩

/-- New entries at the end of the log are above all that is committed or in the snapshot. -/
theorem append_mirrors (hl : Live m v n d p h) {log' : RaftLog}
    (hs' : Shows log' (p.log ++ es) p.base) :
    Mirrors { n with log := log' } { p with log := p.log ++ es } := by
  have hm := hl.mirrors
  have hcommit : (p.log ++ es).take p.commit = p.log.take p.commit :=
    take_eq_of_isPrefix (List.prefix_append _ _) hl.peer.commit_le
  have hbase : (p.log ++ es).take p.base = p.log.take p.base :=
    take_eq_of_isPrefix (List.prefix_append _ _) hm.log.le
  refine ⟨hm.term, hm.vote, hm.role, hm.commit, hm.applied, hs', ?_, hm.snapshot.index, ?_, ?_⟩
  · exact hcommit.symm ▸ hm.store
  · exact (congrArg lastStamp hbase).symm ▸ hm.snapshot.term
  · exact hbase.symm ▸ hm.snapshot.state

/-- The leader's table, once the log is longer. -/
theorem Table.append {r : LeaderReplication} (ht : Table m v r p h) (ha : h'.acks = h.acks) :
    Table m v r { p with log := p.log ++ es } h' := by
  have hlen : (p.log.length : Int) ≤ (p.log ++ es).length := by
    rw [List.length_append]
    omega
  refine ⟨ht.followers, ht.next_pos, fun f => (ht.next_le f).trans (Int.add_le_add_right hlen 1),
    ht.match_nonneg, fun f => (ht.match_le f).trans hlen, fun hr f i e hi he hte => ?_⟩
  rw [ha]
  have hle := ht.match_le f
  refine ht.acked hr f i e hi ?_ hte
  rwa [← getElem?_of_isPrefix (List.prefix_append p.log es) (by omega)]

theorem append_up (hl : Live m v n d p h) (hlead : n.state.role = .leader)
    (hw : Whole (p.log ++ es)) (ha : h'.acks = h.acks) {log' : RaftLog}
    (hs' : Shows log' (p.log ++ es) p.base) :
    Up m v { n with log := log' } (d.writes (appendLogEntries es))
      { p with log := p.log ++ es } h' := by
  obtain ⟨log'', hsaved, hs''⟩ := append_journal hl hw
  obtain rfl := hs''.unique hs'
  refine { hl.toUp with
    mirrors := append_mirrors hl hs'
    saved := hsaved
    votes := fun hr => ?_
    table := fun r hr => (hl.table r hr).append ha }
  rw [hlead] at hr
  cases hr

/-- A crash on the way leaves a first part of the new entries. -/
theorem append_crashed (hl : Live m v n d p h) (hlead : n.state.role = .leader)
    (hw : Whole (p.log ++ es)) (hes : ∀ e ∈ es, e.term = n.state.currentTerm) (k : Nat) :
    ∃ h'' p'', Crashed m v h p (fun _ => False) (d.writes ((appendLogEntries es).take k)) h'' p'' ∧
      h''.decisions = h.decisions := by
  have hw' : Whole (p.log ++ es.take k) :=
    hw.of_isPrefix ((List.prefix_append_right_inj _).mpr (List.take_prefix k es))
  obtain ⟨log', hsaved, hs'⟩ := append_journal hl hw'
  obtain ⟨h'', hmoves, hwh, hel, hdec, hball, -⟩ := append_moves hl hlead hw'
    fun e he => hes e (List.mem_of_mem_take he)
  rw [DataDir.take_appendLogEntries]
  exact ⟨h'', _, ⟨hmoves, hwh, hel, .of_eq hball, .of_isPrefix (List.prefix_append _ _),
    hsaved.onDisk (append_mirrors hl hs') hl.peer.base_le⟩, hdec⟩

end Append

/-- `submit_commands` that raises nothing: its entries are at the end of the log and in the journal;
of a crash, a first part of them is left. -/
theorem submitStart_appends (hl : Live m v n d p h) {commands : List RaftCommand}
    (hsome : ¬ commands.isEmpty = true) (hfree : ¬ n.leadershipTransferInProgress = true)
    (hlead : n.state.role = .leader)
    (hvalid : commands.forM RaftNode.validateCommand = .ok ()) :
    ∃ (es : List LogEntry) (n' : RaftNode) (ws : List Effect) (h' : Hist),
      RaftNode.submitStart commands n = ⟨.ok es, n', ws⟩ ∧
      Lawful m v h p d (fun _ => False) n' (ws.map (·.write)) h' { p with log := p.log ++ es } ∧
      h'.decisions = h.decisions ∧ n.state.role = .leader ∧ n'.state = n.state ∧
      (∀ e ∈ es, e.term = n.state.currentTerm) ∧ es.map (·.command) = commands := by
  have hpos : 0 < n.state.currentTerm := by
    have := hl.history.elected_pos (hl.leading hlead).1
    omega
  obtain ⟨es, log', happ, hs', hw', hes, hcs⟩ :=
    appendCommands_shows hpos commands hl.mirrors.log hl.log_whole (forM_validateCommand hvalid)
  obtain ⟨h', hmoves, hwh, hel, hdec, hball, hack⟩ := append_moves hl hlead hw' hes
  have hup := append_up hl hlead hw' hack hs'
  obtain ⟨r, hinit, htab, -⟩ := initializeLeaderReplication_run hup
  refine ⟨es, { n with log := log', replication := r },
    (appendLogEntries es).map fun w => ⟨{ n with log := log' }, w⟩, h', ?_, ?_, hdec, hlead, rfl,
    hes, hcs⟩
  · simp only [RaftNode.submitStart, NodeM.bind_run, NodeM.get_run, NodeM.ite_run, if_neg hsome,
      if_neg hfree, if_neg (not_not.mpr hlead), hvalid, NodeM.lift_ok_run, NodeM.andThen_ok, happ,
      NodeM.persist_run, hinit, NodeM.behind_mk, NodeM.modify_run, NodeM.pure_run,
      List.append_nil, List.nil_append]
  · rw [NodeM.writes_of_persist]
    exact ⟨hmoves, hwh, Or.inl hel, .of_eq hball, Keeps.of_isPrefix (List.prefix_append _ _),
      hup.setReplication r htab, fun k _ => append_crashed hl hlead hw' hes k⟩

/-- **`submit_commands`, up to `replicate_log`**: it raises and changes nothing, or its entries are
at the end of the log and in the journal; of a crash, a first part of them is left. -/
theorem submitStart_lawful (hl : Live m v n d p h) (commands : List RaftCommand) :
    (∃ result, RaftNode.submitStart commands n = ⟨result, n, []⟩ ∧
      (∀ es, result = .ok es → es = []) ∧ ∀ e, result = .error e → e.rejects = true) ∨
    ∃ (es : List LogEntry) (n' : RaftNode) (ws : List Effect) (h' : Hist),
      RaftNode.submitStart commands n = ⟨.ok es, n', ws⟩ ∧
      Lawful m v h p d (fun _ => False) n' (ws.map (·.write)) h' { p with log := p.log ++ es } ∧
      h'.decisions = h.decisions ∧ n.state.role = .leader ∧ n'.state = n.state ∧
      (∀ e ∈ es, e.term = n.state.currentTerm) ∧ es.map (·.command) = commands := by
  by_cases hempty : commands.isEmpty = true
  · refine Or.inl ⟨.ok [], ?_, by rintro es ⟨⟩; rfl, by simp⟩
    simp only [RaftNode.submitStart, NodeM.bind_run, NodeM.get_run, NodeM.andThen_ok,
      NodeM.behind_nil, if_pos hempty, NodeM.pure_run]
  by_cases htransfer : n.leadershipTransferInProgress = true
  · refine Or.inl ⟨.error (.leadershipTransferInProgressError "Leader is transferring leadership"),
      ?_, by simp, by rintro e ⟨⟩; rfl⟩
    simp only [RaftNode.submitStart, NodeM.bind_run, NodeM.get_run, NodeM.andThen_ok,
      NodeM.behind_nil, NodeM.ite_run, if_neg hempty, if_pos htransfer, NodeM.raise_run]
  by_cases hlead : n.state.role = .leader
  swap
  · refine Or.inl ⟨.error (.notLeaderError s!"Node {n.nodeId} is not the leader"), ?_, by simp,
      by rintro e ⟨⟩; rfl⟩
    simp only [RaftNode.submitStart, NodeM.bind_run, NodeM.get_run, NodeM.andThen_ok,
      NodeM.behind_nil, NodeM.ite_run, if_neg hempty, if_neg htransfer, if_pos hlead,
      NodeM.raise_run]
  rcases hvalid : commands.forM RaftNode.validateCommand with e | u
  · refine Or.inl ⟨.error e, ?_, by simp,
      by rintro e ⟨⟩; exact forM_validateCommand_rejects hvalid⟩
    simp only [RaftNode.submitStart, NodeM.bind_run, NodeM.get_run, NodeM.andThen_ok,
      NodeM.behind_nil, NodeM.ite_run, if_neg hempty, if_neg htransfer, if_neg (not_not.mpr hlead),
      hvalid, NodeM.lift_error_run, NodeM.andThen_error]
  · exact Or.inr (submitStart_appends hl hempty htransfer hlead hvalid)

/-! ## 5. Compaction -/

/-- **`create_snapshot`**: the snapshot goes to disk first, so a crash leaves a journal that is at
most behind it. -/
theorem createSnapshot_lawful (hl : Live m v n d p h) :
    RaftNode.createSnapshot n = ⟨.ok false, n, []⟩ ∨
    ∃ (n' : RaftNode) (ws : List Effect), RaftNode.createSnapshot n = ⟨.ok true, n', ws⟩ ∧
      Lawful m v h p d (fun _ => False) n' (ws.map (·.write)) h { p with base := p.commit } ∧
      n'.state = n.state := by
  have hm := hl.mirrors
  have hbase := hl.peer.base_le
  have hlen := hl.peer.commit_le
  simp only [RaftNode.createSnapshot, NodeM.bind_run, NodeM.get_run, NodeM.andThen_ok,
    NodeM.behind_nil, NodeM.ite_run, NodeM.pure_run]
  rw [hm.commit, hm.applied, min_self, hm.log.base]
  by_cases hle : (p.commit : Int) ≤ p.base
  · rw [if_pos hle]
    exact Or.inl rfl
  rw [if_neg hle, hm.log.termAt hbase hlen]
  obtain ⟨snapshot, hnew, hcap⟩ := RaftSnapshot.new_captures hl.log_whole p.commit
    n.store.snapshot hm.store
  obtain ⟨log, hcompact, hs⟩ := hm.log.compactThrough hbase hlen
  have hmoves := (Move.compact (Q := m.quorums) (v := v) (h := h) p.commit hbase le_rfl).moves
  have hmir : Mirrors (n.compacted snapshot log) { p with base := p.commit } :=
    ⟨hm.term, hm.vote, hm.role, hm.commit, hm.applied, hs, hm.store, hcap⟩
  have hup : Up m v (n.compacted snapshot log)
      (d.writes (saveSnapshot snapshot ++ saveLog log ++ saveState n.state))
      { p with base := p.commit } h := {
    hl.toUp with
    mirrors := hmir
    saved := {
      state := rfl
      snapshot := rfl
      log := DataDir.loadLog_rewrite (d := d.write (.saveSnapshot snapshot)) hs hl.log_whole }
    votes := fun hr =>
      have := hl.votes hr
      ⟨this.nodup, this.member, this.cast⟩
    table := by
      intro r' hr'
      obtain ⟨r, hr, rfl⟩ := Option.map_eq_some_iff.mp hr'
      have ht := hl.table r hr
      exact ⟨ht.followers, ht.next_pos, ht.next_le, ht.match_nonneg, ht.match_le, ht.acked⟩ }
  refine Or.inr ⟨n.compacted snapshot log,
    (saveSnapshot snapshot ++ saveLog log ++ saveState n.state).map fun w => ⟨n, w⟩, ?_, ?_, rfl⟩
  · simp only [NodeM.bind_run, NodeM.andThen_ok, hnew, hm.log.copy hl.log_whole, hcompact,
      NodeM.lift_ok_run, NodeM.persist_run, NodeM.behind_mk, RaftNode.persistState, NodeM.get_run,
      NodeM.modify_run, NodeM.pure_run, List.append_nil, List.nil_append, List.map_append,
      List.append_assoc]
  · rw [NodeM.writes_of_persist]
    refine ⟨hmoves, hl.whole, Or.inl rfl, .of_eq rfl, Keeps.refl _ _, hup, fun k hk => ?_⟩
    have hcrash : ∀ {d' : DataDir}, d'.savedState = d.savedState → d'.loadSnapshot = snapshot →
        (∃ journal log', d'.loadLog = .ok journal ∧ journal.baseIndex ≤ p.commit ∧
          journal.installSnapshotBoundary p.commit (lastStamp (p.log.take p.commit)) = .ok log' ∧
          Shows log' p.log p.commit) →
        Crashed m v h p (fun _ => False) d' h { p with base := p.commit } := by
      intro d' hst hsn hlog
      have hdisk := hl.onDisk
      refine ⟨hmoves, hl.whole, rfl, .of_eq rfl, Keeps.refl _ _, ?_, ?_, ?_, hsn ▸ hcap, hlog⟩
      · rw [hst]
        exact hdisk.term
      · rw [hst]
        exact hdisk.vote
      · rw [hst]
        have := hdisk.commit
        change max _ (p.commit : Int) = p.commit
        omega
    rcases k with _ | _ | _ | k
    · exact ⟨h, p, hl.crashed, rfl⟩
    · -- the snapshot is written, the journal not yet
      obtain ⟨log', hinst, hs'⟩ := hm.log.install_kept hbase hlen
      have hb : n.log.baseIndex ≤ p.commit := by rw [hm.log.base]; omega
      exact ⟨h, _, hcrash rfl rfl ⟨n.log, log', hl.saved.log, hb, hinst, hs'⟩, rfl⟩
    · obtain ⟨log', hinst, hs'⟩ := hs.install_kept le_rfl hlen
      exact ⟨h, _, hcrash rfl rfl ⟨log, log', DataDir.loadLog_rewrite
        (d := d.write (.saveSnapshot snapshot)) hs hl.log_whole, hs.base.le, hinst, hs'⟩, rfl⟩
    · have : k + 3 < 3 := hk
      omega

/-! ## 6. Stretches that change nothing the peer sees -/

/-- `n'` differs from `n` in its table, its timer, its lease and its transfer flag at most. -/
structure Idle (m : Members) (v : NodeId) (p : PeerState) (h : Hist) (n n' : RaftNode) : Prop where
  same : n' = { n with
    replication := n'.replication
    timer := n'.timer
    lastReadQuorumTerm := n'.lastReadQuorumTerm
    lastReadQuorumTime := n'.lastReadQuorumTime
    leadershipTransferInProgress := n'.leadershipTransferInProgress }
  table : ∀ r, n'.replication = some r → Table m v r p h

theorem Up.idle {n' : RaftNode} (hu : Up m v n d p h) (hi : Idle m v p h n n') :
    Up m v n' d p h := by
  have htab := hi.table
  rw [hi.same]
  exact { hu with
    mirrors := { hu.mirrors with }
    saved := { hu.saved with }
    table := htab }

theorem Idle.refl (hu : Up m v n d p h) : Idle m v p h n n := ⟨rfl, hu.table⟩

/-- What is committed is already applied. -/
theorem applyCommitted_run (hm : Mirrors n p) : RaftNode.applyCommitted n = ⟨.ok (), n, []⟩ := by
  unfold RaftNode.applyCommitted applyCommittedEntries
  rw [hm.commit, hm.applied, Int.sub_self]
  rfl

theorem submitResults_idle (entries : List LogEntry) :
    ∃ results, RaftNode.submitResults entries n = ⟨.ok results, n, []⟩ := by
  simp only [RaftNode.submitResults, NodeM.bind_run, NodeM.get_run, NodeM.andThen_ok,
    NodeM.behind_nil, NodeM.ite_run, NodeM.pure_run]
  split <;> exact ⟨_, rfl⟩

theorem getFinish_idle (key : String) (now : Nat) :
    ∃ result, RaftNode.getFinish key now n = ⟨result, n, []⟩ := by
  simp only [RaftNode.getFinish, NodeM.bind_run, NodeM.get_run, NodeM.andThen_ok, NodeM.behind_nil,
    NodeM.ite_run]
  split <;> exact ⟨_, rfl⟩

theorem transferSelect_idle (targetId : Option NodeId) (term : Int)
    (results : NodeId → Option Bool) :
    ∃ result, RaftNode.transferSelect targetId term results n = ⟨result, n, []⟩ := by
  simp only [RaftNode.transferSelect, NodeM.bind_run, NodeM.get_run, NodeM.andThen_ok,
    NodeM.behind_nil]
  rcases n.replication with _ | r
  · exact ⟨_, rfl⟩
  · simp only [NodeM.ite_run]
    split <;> exact ⟨_, rfl⟩

section Quiet

variable (hu : Up m v n d p h)
include hu

theorem replicateLogStart_idle :
    ∃ result n', RaftNode.replicateLogStart n = ⟨result, n', []⟩ ∧ Idle m v p h n n' := by
  simp only [RaftNode.replicateLogStart, NodeM.bind_run, NodeM.get_run, NodeM.andThen_ok,
    NodeM.behind_nil, NodeM.ite_run, NodeM.raise_run]
  split
  · exact ⟨_, n, rfl, .refl hu⟩
  · obtain ⟨r, hinit, htab, -⟩ := initializeLeaderReplication_run hu
    rw [hinit]
    rcases r with _ | r
    · exact ⟨_, _, rfl, rfl, htab⟩
    · exact ⟨_, _, rfl, rfl, htab⟩

theorem roundStart_idle :
    ∃ result n', RaftNode.roundStart n = ⟨result, n', []⟩ ∧ Idle m v p h n n' := by
  simp only [RaftNode.roundStart, NodeM.bind_run, NodeM.get_run, NodeM.andThen_ok,
    NodeM.behind_nil, NodeM.ite_run, NodeM.pure_run]
  split
  · exact ⟨_, n, rfl, .refl hu⟩
  · obtain ⟨r, hinit, htab, -⟩ := initializeLeaderReplication_run hu
    rw [hinit]
    exact ⟨_, _, rfl, rfl, htab⟩

theorem getStart_idle (key : String) (now : Nat) :
    ∃ result, RaftNode.getStart key now n = ⟨result, n, []⟩ := by
  simp only [RaftNode.getStart, NodeM.bind_run, NodeM.get_run, NodeM.andThen_ok, NodeM.behind_nil,
    NodeM.ite_run, NodeM.pure_run, NodeM.raise_run, applyCommitted_run hu.mirrors]
  split
  · exact ⟨_, rfl⟩
  · split <;> exact ⟨_, rfl⟩

theorem confirmStart_idle :
    ∃ result n', RaftNode.confirmStart n = ⟨result, n', []⟩ ∧ Idle m v p h n n' := by
  simp only [RaftNode.confirmStart, NodeM.bind_run, NodeM.get_run, NodeM.andThen_ok,
    NodeM.behind_nil, NodeM.ite_run, NodeM.raise_run]
  split
  · exact ⟨_, n, rfl, .refl hu⟩
  · obtain ⟨r, hinit, htab, -⟩ := initializeLeaderReplication_run hu
    rw [hinit]
    rcases r with _ | r
    · exact ⟨_, _, rfl, rfl, htab⟩
    · exact ⟨_, _, rfl, rfl, htab⟩

theorem confirmFinish_idle (readTerm : Int) (confirmed : List NodeId) (now : Nat) :
    ∃ result n', RaftNode.confirmFinish readTerm confirmed now n = ⟨result, n', []⟩ ∧
      Idle m v p h n n' := by
  simp only [RaftNode.confirmFinish, NodeM.bind_run, NodeM.get_run, NodeM.andThen_ok,
    NodeM.behind_nil, NodeM.ite_run, NodeM.raise_run, NodeM.modify_run]
  split
  · exact ⟨_, n, rfl, .refl hu⟩
  · split
    · exact ⟨_, n, rfl, .refl hu⟩
    · have hm : Mirrors { n with
          lastReadQuorumTerm := some readTerm
          lastReadQuorumTime := some now } p := { hu.mirrors with }
      rw [applyCommitted_run hm]
      exact ⟨_, _, rfl, rfl, hu.table⟩

theorem transferStart_idle (targetId : Option NodeId) :
    ∃ result n', RaftNode.transferStart targetId n = ⟨result, n', []⟩ ∧ Idle m v p h n n' := by
  simp only [RaftNode.transferStart, NodeM.bind_run, NodeM.get_run, NodeM.andThen_ok,
    NodeM.behind_nil, NodeM.ite_run, NodeM.raise_run]
  split
  · exact ⟨_, n, rfl, .refl hu⟩
  · obtain ⟨r, hinit, htab, -⟩ := initializeLeaderReplication_run hu
    rw [hinit]
    simp only [NodeM.andThen_ok, NodeM.behind_nil]
    rcases r with _ | r
    · exact ⟨_, _, rfl, rfl, htab⟩
    · rcases targetId with _ | target
      · exact ⟨_, _, rfl, rfl, htab⟩
      · simp only [NodeM.bind_run, NodeM.get_run, NodeM.andThen_ok, NodeM.behind_nil, NodeM.ite_run,
          NodeM.raise_run]
        split
        · exact ⟨_, _, rfl, rfl, htab⟩
        · exact ⟨_, _, rfl, rfl, htab⟩

end Quiet

/-! ## 7. Handing leadership over -/

/-- **`transfer_leadership`, after TimeoutNow**: the leader goes on, steps down in its term or
follows the term it read. -/
theorem transferResponse_lawful (hl : Live m v n d p h) (term : Int)
    (response : TimeoutNowResponse) :
    ∃ result n' s ws, RaftNode.transferResponse term response n = ⟨result, n', ws⟩ ∧
      n'.state = s ∧
      Lawful m v h p d (fun _ => False) n' (ws.map (·.write)) h (withState p s) := by
  have hm := hl.mirrors
  have hquiet : Lawful m v h p d (fun _ => False) n [] h (withState p n.state) := by
    rw [hm.withState]
    exact .quiet hl hl.toUp
  simp only [RaftNode.transferResponse, NodeM.bind_run, NodeM.get_run, NodeM.andThen_ok,
    NodeM.behind_nil, NodeM.ite_run, NodeM.pure_run]
  by_cases hstale : n.state.role ≠ .leader ∨ n.state.currentTerm ≠ term
  · rw [if_pos hstale]
    exact ⟨_, n, _, [], rfl, rfl, hquiet⟩
  rw [if_neg hstale]
  by_cases hnew : response.term > n.state.currentTerm
  · rw [if_pos hnew]
    simp only [RaftNode.becomeFollower, RaftNode.persistState, NodeM.bind_run, NodeM.get_run,
      NodeM.andThen_ok, RaftState.becomeFollower_ok none hnew.le, NodeM.lift_ok_run,
      NodeM.modify_run, NodeM.persist_run, NodeM.pure_run, NodeM.behind_mk]
    exact ⟨_, _, _, (saveState _).map fun w => ⟨_, w⟩, rfl, rfl, stepDown_lawful hl hnew⟩
  rw [if_neg hnew]
  split
  · exact ⟨_, n, _, [], rfl, rfl, hquiet⟩
  · -- stepping down in the same term leaves nothing to save
    have hterm : n.state.currentTerm = term := by
      by_contra hne
      exact hstale (Or.inr hne)
    subst hterm
    simp only [RaftNode.becomeFollower, NodeM.bind_run, NodeM.get_run, NodeM.andThen_ok,
      RaftState.becomeFollower_ok none le_rfl, NodeM.lift_ok_run, NodeM.modify_run, NodeM.pure_run,
      NodeM.behind_mk]
    have hsame : (n.state.follow n.state.currentTerm none).persisted = n.state.persisted := by
      simp [RaftState.persisted, RaftState.follow]
    have hup := (hl.toUp.setState h (s := n.state.follow n.state.currentTerm none)
      (show Saved d _ from { hl.saved with state := hl.saved.state.trans hsame.symm }) rfl rfl rfl
        subset_rfl
      n.election (fun hr => by cases hr) (fun hr => by cases hr)).setReplication none (by simp)
    exact ⟨_, _, _, [], rfl, rfl, .of_single hl (Nat.zero_le _) (follow_moves hm le_rfl none)
      hl.whole (Or.inl rfl) (.of_eq rfl) (Keeps.refl _ _) hup⟩

end PyRaftKv
