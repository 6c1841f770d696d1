/-
# When replication to one follower converges

The loop of `_replicate_to_follower` goes down from `next_index` while the follower refuses, sends
its snapshot where it has compacted the entries away, and returns once the follower has all of its
log.  `replicateToFollower` runs the loop against a follower that answers every request.

It does not always end.  A follower that has compacted its own log refuses every index below its
boundary, and a leader whose `next_index` is not above that boundary can get above it only by a
snapshot or a match index that reaches it.  Where there is neither, the loop goes round for ever
(`Turning.forever`).  `replication_converges` says exactly when it ends well.
-/
import PyRaftKv.Guarantees.Agreement
import PyRaftKv.Guarantees.CatchUp

open Consensus

namespace PyRaftKv

/-! ## 1. The loop -/

namespace RaftNode

/-- What a follower answers, as the loop reads it. -/
def replicationReply (clock : Clock) : ReplicationRequest → NodeM (Int × Bool)
  | .appendEntries request => do
    let response ← handleAppendEntries clock request
    return (response.term, response.success)
  | .installSnapshot request => do
    let response ← handleInstallSnapshot clock request
    return (response.term, response.success)

/-- The loop of `_replicate_to_follower` with a follower that answers every request, for one turn
at each of the follower's clocks: what it returns or raises, the leader and the follower, or `none`
where it has not ended.  A follower that raises is a `TransportError` for the leader. -/
def replicateToFollower (followerId : NodeId) : List Clock → RaftNode → RaftNode →
    Option (Except RaftError Bool × RaftNode × RaftNode)
  | [], _, _ => none
  | clock :: clocks, leader, follower =>
    match replicateBuild followerId leader with
    | ⟨.error e, leader, _⟩ => some (.error e, leader, follower)
    | ⟨.ok none, leader, _⟩ => some (.ok false, leader, follower)
    | ⟨.ok (some request), leader, _⟩ =>
      match replicationReply clock request follower with
      | ⟨.error _, follower, _⟩ => some (.ok false, leader, follower)
      | ⟨.ok (term, success), follower, _⟩ =>
        match replicateResponse followerId request term success leader with
        | ⟨.error e, leader, _⟩ => some (.error e, leader, follower)
        | ⟨.ok (some result), leader, _⟩ => some (.ok result, leader, follower)
        | ⟨.ok none, leader, _⟩ => replicateToFollower followerId clocks leader follower

end RaftNode

/-- The follower has the leader's entries above both boundaries, and its commit index. -/
structure Replicated (leader follower : RaftNode) : Prop where
  entries : ∀ i : Int, leader.log.baseIndex < i → follower.log.baseIndex < i →
    i ≤ leader.log.lastIndex → follower.log.get i = leader.log.get i
  commitIndex : leader.state.commitIndex ≤ follower.state.commitIndex

/-- **The loop ends**, whatever the follower's clocks show, it returns `True`, and the follower then
has what it should. -/
def Converges (followerId : NodeId) (leader follower : RaftNode) : Prop :=
  ∃ turns, ∀ clocks : List Clock, turns ≤ clocks.length → ∃ leader' follower',
    RaftNode.replicateToFollower followerId clocks leader follower =
      some (.ok true, leader', follower') ∧ Replicated leader follower'

/-- At an index the leader still has, the two logs have an entry of one term. -/
def AgreesAt (leader follower : RaftNode) (i : Int) : Prop :=
  leader.log.baseIndex ≤ i ∧ i ≤ leader.log.lastIndex ∧
    follower.log.termAt i = leader.log.termAt i

/-- Some AppendEntries of the loop will be accepted. -/
def Appendable (followerId : NodeId) (r : LeaderReplication) (leader follower : RaftNode) : Prop :=
  ∃ i, i < r.nextIndex followerId ∧ AgreesAt leader follower i

/-- The leader has a snapshot, and this or the match index reaches the follower's boundary.  After
its snapshot the leader asks no more of a follower whose match index is the last index, so in that
case the follower has to have the rest already. -/
def Installable (followerId : NodeId) (r : LeaderReplication) (leader follower : RaftNode) : Prop :=
  0 < leader.log.baseIndex ∧
  follower.log.baseIndex ≤ max (r.matchIndex followerId) leader.log.baseIndex ∧
  (leader.log.baseIndex < leader.log.lastIndex → r.matchIndex followerId = leader.log.lastIndex →
    AgreesAt leader follower leader.log.lastIndex ∧
      leader.state.commitIndex ≤ max follower.state.commitIndex leader.log.baseIndex)

/-! ## 2. The two sides of the loop -/

/-- A leader with the whole log `L`, its boundary at `b` and its commit index at `c`, that will send
follower `f` the entries above `k` and knows it to have `m` of them. -/
structure LeaderOf (L : List LogEntry) (b c : Nat) (f : NodeId) (k m : Nat) (n : RaftNode) :
    Prop where
  whole : Whole L
  role : n.state.role = .leader
  id : n.state.nodeId = n.nodeId
  shows : Shows n.log L b
  snapshot : Captures n.snapshot L b
  commitIndex : n.state.commitIndex = c
  commit_le : c ≤ L.length
  base_le : b ≤ c
  next_le : k ≤ L.length
  match_le : m ≤ L.length
  table : ∃ r, n.replication = some r ∧ f ∈ r.followers ∧ r.nextIndex f = (k : Int) + 1 ∧
    r.matchIndex f = m

/-- A follower of a leader in `term`. -/
structure Listener (L l : List LogEntry) (B a : Nat) (term : Int) (n : RaftNode) : Prop
    extends Aligned L l n B a where
  term_le : n.state.currentTerm ≤ term

section Turns

variable {L l : List LogEntry} {b c k m B a : Nat} {f : NodeId} {n q : RaftNode}

/-- The leader with another row for `f` in its table. -/
theorem LeaderOf.setTable (hn : LeaderOf L b c f k m n) {k' m' : Nat} (hk : k' ≤ L.length)
    (hm : m' ≤ L.length) {r' : LeaderReplication} (hf : f ∈ r'.followers)
    (hnext : r'.nextIndex f = (k' : Int) + 1) (hmatch : r'.matchIndex f = m') :
    LeaderOf L b c f k' m' { n with replication := some r' } :=
  { hn with
    next_le := hk
    match_le := hm
    table := ⟨r', rfl, hf, hnext, hmatch⟩ }

/-- Above its boundary the leader sends the entries above `k`. -/
theorem LeaderOf.build_append (hn : LeaderOf L b c f k m n) (hbk : b ≤ k) :
    RaftNode.replicateBuild f n = ⟨.ok (some (.appendEntries
      (suffixRequest L k c n.state.currentTerm n.nodeId))), n, []⟩ := by
  obtain ⟨r, hr, hf, hnext, -⟩ := hn.table
  have hbase : ¬ r.nextIndex f ≤ n.log.baseIndex := by
    rw [hnext, hn.shows.base]
    omega
  have hbuild : r.buildRequest n.state n.log f (some n.state.commitIndex) =
      .ok (suffixRequest L k c n.state.currentTerm n.nodeId) := by
    rw [buildRequest_run hn.shows hf hnext hbk hn.next_le, hn.id, hn.commitIndex]
    rfl
  simp only [RaftNode.replicateBuild, NodeM.bind_run, NodeM.get_run, NodeM.andThen_ok,
    NodeM.behind_nil, NodeM.ite_run, hn.role, ne_eq, not_true_eq_false, if_false, hr, hbase,
    hbuild, NodeM.lift_ok_run, NodeM.pure_run]

/-- Below its boundary it sends its snapshot. -/
theorem LeaderOf.build_install (hn : LeaderOf L b c f k m n) (hkb : k < b) :
    RaftNode.replicateBuild f n = ⟨.ok (some (.installSnapshot
      (snapshotRequest L b ⟨n.snapshot.state⟩ n.state.currentTerm n.nodeId))), n, []⟩ := by
  obtain ⟨r, hr, hf, hnext, -⟩ := hn.table
  have hbase : r.nextIndex f ≤ n.log.baseIndex := by
    rw [hnext, hn.shows.base]
    omega
  have hsame : ¬ (n.snapshot.lastIncludedIndex ≠ n.log.baseIndex ∨
      n.snapshot.lastIncludedTerm ≠ n.log.baseTerm) := by
    rw [hn.snapshot.index, hn.snapshot.term, hn.shows.base, hn.shows.baseTerm]
    simp
  have hrequest : (⟨n.state.currentTerm, n.nodeId, n.snapshot.lastIncludedIndex,
      n.snapshot.lastIncludedTerm, n.snapshot.state⟩ : InstallSnapshotRequest) =
      snapshotRequest L b ⟨n.snapshot.state⟩ n.state.currentTerm n.nodeId := by
    unfold snapshotRequest
    rw [hn.snapshot.index, hn.snapshot.term]
    rfl
  simp only [RaftNode.replicateBuild, NodeM.bind_run, NodeM.get_run, NodeM.andThen_ok,
    NodeM.behind_nil, NodeM.ite_run, hn.role, ne_eq, not_true_eq_false, if_false, hr, hbase,
    if_true, hsame, NodeM.pure_run, hrequest]

/-- **A refusal** takes `next_index` one down, but not below 1. -/
theorem LeaderOf.refused (hn : LeaderOf L b c f k m n) (request : AppendEntriesRequest)
    (hterm : request.term = n.state.currentTerm) :
    ∃ n', RaftNode.replicateResponse f (.appendEntries request) n.state.currentTerm false n =
        ⟨.ok none, n', []⟩ ∧ LeaderOf L b c f (k - 1) m n' ∧ n'.state = n.state ∧
        n'.log = n.log := by
  obtain ⟨r, hr, hf, hnext, hmatch⟩ := hn.table
  have hstale : ¬ (n.state.role ≠ .leader ∨
      n.state.currentTerm ≠ (ReplicationRequest.appendEntries request).term) := by
    rintro (h | h)
    · exact h hn.role
    · exact h hterm.symm
  simp only [RaftNode.replicateResponse, NodeM.bind_run, NodeM.get_run, NodeM.andThen_ok,
    NodeM.behind_nil, hr, NodeM.ite_run, if_neg hstale, gt_iff_lt, lt_irrefl, if_false,
    Bool.false_eq_true, LeaderReplication.recordFailure, hf, not_true_eq_false,
    NodeM.lift_ok_run, NodeM.modify_run, NodeM.pure_run]
  refine ⟨_, rfl, hn.setTable ((Nat.sub_le _ _).trans hn.next_le) hn.match_le hf ?_ hmatch, rfl,
    rfl⟩
  simp only [Function.update_self, hnext]
  omega

/-- **An accepted AppendEntries** ends the loop. -/
theorem LeaderOf.accepted (hn : LeaderOf L b c f k m n) :
    ∃ n', RaftNode.replicateResponse f (.appendEntries
        (suffixRequest L k c n.state.currentTerm n.nodeId)) n.state.currentTerm true n =
      ⟨.ok (some true), n', []⟩ := by
  obtain ⟨r, hr, hf, hnext, hmatch⟩ := hn.table
  have hmle := hn.match_le
  have hkle := hn.next_le
  have hlast : (suffixRequest L k c n.state.currentTerm n.nodeId).lastReplicated = L.length := by
    unfold AppendEntriesRequest.lastReplicated suffixRequest
    rcases hkle.eq_or_lt with heq | hlt
    · rw [heq, List.drop_length]
      rfl
    · rw [List.getLast?_drop, if_neg (by omega), List.getLast?_eq_getElem?]
      rw [List.getElem?_eq_getElem (by omega)]
      have := hn.whole.contiguous (L.length - 1) _ (List.getElem?_eq_getElem (by omega))
      simp only
      omega
  have hdone : ¬ ((r.advance f (L.length : Int)).nextIndex f ≤ n.log.lastIndex ∨
      (c : Int) < n.state.commitIndex) := by
    unfold LeaderReplication.advance
    simp only [Function.update_self]
    rw [hmatch, hn.shows.lastIndex, hn.commitIndex]
    omega
  have hcommit : (suffixRequest L k c n.state.currentTerm n.nodeId).leaderCommit = c := rfl
  have hstale : ¬ (n.state.role ≠ .leader ∨ n.state.currentTerm ≠ (ReplicationRequest.appendEntries
      (suffixRequest L k c n.state.currentTerm n.nodeId)).term) := by
    rintro (h | h)
    · exact h hn.role
    · exact h rfl
  simp only [RaftNode.replicateResponse, NodeM.bind_run, NodeM.get_run, NodeM.andThen_ok,
    NodeM.behind_nil, hr, NodeM.ite_run, if_neg hstale, gt_iff_lt, lt_irrefl, if_false, if_true,
    LeaderReplication.recordSuccess, hf, not_true_eq_false, hlast, hcommit,
    NodeM.lift_ok_run, NodeM.modify_run, NodeM.pure_run, if_neg hdone]
  exact ⟨_, rfl⟩

/-- **An accepted snapshot** takes `next_index` to the boundary or the match index, and ends the
loop where that is the last index. -/
theorem LeaderOf.installed (hn : LeaderOf L b c f k m n) (S : KVStore) :
    ∃ n', RaftNode.replicateResponse f (.installSnapshot
        (snapshotRequest L b S n.state.currentTerm n.nodeId)) n.state.currentTerm true n =
      ⟨.ok (if max m b < L.length then none else some true), n', []⟩ ∧
      LeaderOf L b c f (max m b) (max m b) n' ∧ n'.state = n.state ∧ n'.log = n.log := by
  obtain ⟨r, hr, hf, hnext, hmatch⟩ := hn.table
  have hmb : max m b ≤ L.length := max_le hn.match_le (hn.base_le.trans hn.commit_le)
  have hnext' : (r.advance f (b : Int)).nextIndex f = ((max m b : Nat) : Int) + 1 := by
    unfold LeaderReplication.advance
    simp only [Function.update_self]
    rw [hmatch]
    omega
  have hmatch' : (r.advance f (b : Int)).matchIndex f = (max m b : Nat) := by
    unfold LeaderReplication.advance
    simp only [Function.update_self]
    rw [hmatch]
    omega
  have hidx : (snapshotRequest L b S n.state.currentTerm n.nodeId).lastIncludedIndex = b := rfl
  have hstale : ¬ (n.state.role ≠ .leader ∨ n.state.currentTerm ≠
      (ReplicationRequest.installSnapshot
        (snapshotRequest L b S n.state.currentTerm n.nodeId)).term) := by
    rintro (h | h)
    · exact h hn.role
    · exact h rfl
  have hmore : ((max m b : Nat) : Int) + 1 ≤ n.log.lastIndex ↔ max m b < L.length := by
    rw [hn.shows.lastIndex]
    omega
  simp only [RaftNode.replicateResponse, NodeM.bind_run, NodeM.get_run, NodeM.andThen_ok,
    NodeM.behind_nil, hr, NodeM.ite_run, if_neg hstale, gt_iff_lt, lt_irrefl, if_false,
    Bool.not_true, Bool.false_eq_true, LeaderReplication.recordSnapshotSuccess, hf,
    not_true_eq_false, hidx, NodeM.lift_ok_run, NodeM.modify_run, NodeM.pure_run, hnext', hmore]
  exact ⟨_, rfl, hn.setTable hmb hmb hf hnext' hmatch', rfl, rfl⟩

/-- Both sides of an index: the follower has the leader's entries up to `i`. -/
def Reaches (L l : List LogEntry) (B i : Nat) : Prop :=
  B ≤ i ∧ i ≤ l.length ∧ l.take i = L.take i

/-- What the follower's handler looks at tells whether it has the entries up to `i`. -/
theorem Aligned.reaches_iff (hq : Aligned L l q B a) {i : Nat} (hi : i ≤ L.length) :
    q.log.termAt i = some (lastStamp (L.take i)) ↔ Reaches L l B i := by
  constructor
  · intro h
    exact hq.take_eq hi h
  · rintro ⟨hB, hl, heq⟩
    rw [hq.shows.termAt hB hl, heq]

/-- The follower keeps all it has but for its term and its timer. -/
theorem Aligned.follow (hq : Aligned L l q B a) (term : Int) (leaderId : Option NodeId)
    (timer : ElectionTimer) :
    Listener L l B a term { q with
      state := q.state.follow term leaderId, timer, replication := none } where
  shows := hq.shows
  contiguous := hq.contiguous
  snapshot := hq.snapshot
  base_le := hq.base_le
  commit_le := hq.commit_le
  known := hq.known
  committed := hq.committed
  matching := hq.matching
  commitIndex := hq.commitIndex
  lastApplied := hq.lastApplied
  store := hq.store
  term_le := le_rfl

theorem replicationReply_append {clock : Clock} {request : AppendEntriesRequest}
    {a : AppendEntriesResponse} {q' : RaftNode} {ws : List Effect}
    (hrun : RaftNode.handleAppendEntries clock request q = ⟨.ok a, q', ws⟩) :
    RaftNode.replicationReply clock (.appendEntries request) q =
      ⟨.ok (a.term, a.success), q', ws⟩ := by
  simp only [RaftNode.replicationReply, NodeM.bind_run, hrun, NodeM.andThen_ok, NodeM.pure_run,
    NodeM.behind_mk, List.append_nil]

theorem replicationReply_install {clock : Clock} {request : InstallSnapshotRequest}
    {a : InstallSnapshotResponse} {q' : RaftNode} {ws : List Effect}
    (hrun : RaftNode.handleInstallSnapshot clock request q = ⟨.ok a, q', ws⟩) :
    RaftNode.replicationReply clock (.installSnapshot request) q =
      ⟨.ok (a.term, a.success), q', ws⟩ := by
  simp only [RaftNode.replicationReply, NodeM.bind_run, hrun, NodeM.andThen_ok, NodeM.pure_run,
    NodeM.behind_mk, List.append_nil]

/-- **A follower that does not reach `k`** refuses the entries above it. -/
theorem Listener.refuse {term : Int} (hq : Listener L l B a term q) (hk : k ≤ L.length)
    (hnot : ¬ Reaches L l B k) (leaderId : NodeId) (clock : Clock) :
    ∃ q' ws, RaftNode.replicationReply clock (.appendEntries (suffixRequest L k c term leaderId))
        q = ⟨.ok (term, false), q', ws⟩ ∧ Listener L l B a term q' := by
  have hmiss : q.log.termAt (k : Int) ≠ some (lastStamp (L.take k)) :=
    fun h => hnot ((hq.reaches_iff hk).mp h)
  have hrun : PyRaftKv.handleAppendEntries q.state q.log (suffixRequest L k c term leaderId)
      q.store = (.ok ⟨term, false⟩, q.state.follow term (some leaderId), q.log, q.store) := by
    unfold PyRaftKv.handleAppendEntries suffixRequest
    rw [if_neg (not_lt.mpr hq.term_le)]
    simp only [RaftState.becomeFollower_ok _ hq.term_le, RaftState.follow_currentTerm]
    rw [if_pos hmiss, ite_self]
  exact ⟨_, _, replicationReply_append (handleAppendEntries_refused clock rfl hrun),
    hq.follow term (some leaderId) q.timer⟩

/-- A follower that reaches `k` takes the entries above it. -/
theorem Listener.accept {term : Int} (hq : Listener L l B a term q) (hL : Whole L)
    (hc : c ≤ L.length) (hk : k ≤ L.length) (hreach : Reaches L l B k) (leaderId : NodeId)
    (clock : Clock) :
    ∃ q' l' ws, RaftNode.replicationReply clock
        (.appendEntries (suffixRequest L k c term leaderId)) q = ⟨.ok (term, true), q', ws⟩ ∧
      Shows q'.log l' B ∧ L <+: l' ∧ q'.state.commitIndex = (max a c : Nat) := by
  obtain ⟨hB, hkl, heq⟩ := hreach
  obtain ⟨q', l', ws, hrun, hs', hsync, hcommit, -, -⟩ :=
    hq.append hL hc hB hkl hk heq hq.term_le leaderId clock
  exact ⟨q', l', ws, replicationReply_append hrun, hs', hsync.window, hcommit⟩

/-- A follower whose boundary is not above `b` takes the snapshot at `b`. -/
theorem Listener.install {term : Int} (hq : Listener L l B a term q) (hL : Whole L)
    (hBb : B ≤ b) (hb : b ≤ L.length) {S : KVStore} (hS : Replays (L.take b) S)
    (leaderId : NodeId) (clock : Clock) :
    ∃ q' l' ws, RaftNode.replicationReply clock
        (.installSnapshot (snapshotRequest L b S term leaderId)) q = ⟨.ok (term, true), q', ws⟩ ∧
      (l' = l ∧ Reaches L l B b ∨ l' = L.take b ∧ ¬ L <+: l) ∧
      Listener L l' b (max a b) term q' := by
  obtain ⟨q', l', ws, hrun, hterm, hl', ha'⟩ := hq.toAligned.install hL hBb hb hS hq.term_le
    leaderId clock
  exact ⟨q', l', ws, replicationReply_install hrun,
    hl'.imp_left fun h => ⟨h.1, hBb, h.2.2, h.2.1⟩, ha', hterm.le⟩

/-- A follower whose boundary is above the snapshot's answers that it has it. -/
theorem Listener.covered {term : Int} (hq : Listener L l B a term q) (hL : Whole L)
    {r : InstallSnapshotRequest} (hr : r.term = term) (hidx : r.lastIncludedIndex = b)
    (hterm : r.lastIncludedTerm = lastStamp (L.take b)) (hbB : b < B) (clock : Clock) :
    ∃ q' ws, RaftNode.replicationReply clock (.installSnapshot r) q =
        ⟨.ok (term, true), q', ws⟩ ∧ Listener L l B a term q' := by
  subst hr
  have hnonneg := (hL.of_isPrefix (List.take_prefix b L)).lastStamp_nonneg
  have hvalid : ¬ (r.lastIncludedIndex < 0 ∨ r.lastIncludedTerm < 0) := by omega
  have hcovered : r.lastIncludedIndex < q.snapshot.lastIncludedIndex := by
    rw [hq.snapshot]
    omega
  obtain ⟨ws, hrun⟩ : ∃ ws, RaftNode.handleInstallSnapshot clock r q =
      ⟨.ok ⟨r.term, true⟩, { q with
        state := q.state.follow r.term (some r.leaderId)
        timer := .reset clock.now clock.timeout, replication := none }, ws⟩ := by
    simp only [RaftNode.handleInstallSnapshot, NodeM.bind_run, NodeM.get_run, NodeM.andThen_ok,
      NodeM.behind_nil, NodeM.ite_run, if_neg (not_lt.mpr hq.term_le), RaftNode.becomeFollower,
      RaftState.becomeFollower_ok _ hq.term_le, NodeM.lift_ok_run, NodeM.modify_run,
      if_neg hvalid, if_pos hcovered, NodeM.pure_run, persistTerm_run]
    exact ⟨_, rfl⟩
  exact ⟨_, ws, replicationReply_install hrun,
    hq.follow r.term (some r.leaderId) (.reset clock.now clock.timeout)⟩

/-- What the follower has committed it has as the leader has it, so its boundary too. -/
theorem Aligned.reaches_base (hq : Aligned L l q B a) : Reaches L l B B := by
  have hBa := hq.base_le
  refine ⟨le_rfl, hBa.trans hq.commit_le, ?_⟩
  rw [← min_eq_left hBa, ← List.take_take, hq.committed, List.take_take]

end Turns

/-! ## 3. One turn -/

/-- The two sides of the loop between two turns. -/
structure Turning (L l : List LogEntry) (b c B a : Nat) (f : NodeId) (k m : Nat)
    (n q : RaftNode) : Prop extends LeaderOf L b c f k m n where
  listener : Listener L l B a n.state.currentTerm q

/-- The follower has all of `L` above its boundary, and what is committed of it. -/
def Finished (L : List LogEntry) (c B : Nat) (q : RaftNode) : Prop :=
  ∃ l', Shows q.log l' B ∧ L <+: l' ∧ (c : Int) ≤ q.state.commitIndex

section Loop

variable {L l : List LogEntry} {b c k m B a : Nat} {f : NodeId} {n q : RaftNode}

open RaftNode

theorem Turning.refuse (ht : Turning L l b c B a f k m n q) (hbk : b ≤ k)
    (hnot : ¬ Reaches L l B k) (clock : Clock) (clocks : List Clock) :
    ∃ n' q', replicateToFollower f (clock :: clocks) n q = replicateToFollower f clocks n' q' ∧
      Turning L l b c B a f (k - 1) m n' q' := by
  obtain ⟨q', ws, hreply, hq'⟩ := ht.listener.refuse (c := c) ht.next_le hnot n.nodeId clock
  obtain ⟨n', hresponse, hn', hstate, -⟩ := ht.toLeaderOf.refused
    (suffixRequest L k c n.state.currentTerm n.nodeId) rfl
  refine ⟨n', q', ?_, hn', hstate ▸ hq'⟩
  simp only [replicateToFollower, ht.build_append hbk, hreply, hresponse]

theorem Turning.accept (ht : Turning L l b c B a f k m n q) (hbk : b ≤ k)
    (hreach : Reaches L l B k) (clock : Clock) (clocks : List Clock) :
    ∃ n' q', replicateToFollower f (clock :: clocks) n q = some (.ok true, n', q') ∧
      Finished L c B q' := by
  obtain ⟨q', l', ws, hreply, hs', hp, hcommit⟩ := ht.listener.accept ht.whole ht.commit_le
    ht.next_le hreach n.nodeId clock
  obtain ⟨n', hresponse⟩ := ht.toLeaderOf.accepted
  refine ⟨n', q', ?_, l', hs', hp, by rw [hcommit]; omega⟩
  simp only [replicateToFollower, ht.build_append hbk, hreply, hresponse]

theorem Turning.install (ht : Turning L l b c B a f k m n q) (hkb : k < b) (hBb : B ≤ b)
    (clock : Clock) (clocks : List Clock) :
    ∃ n' q' l', replicateToFollower f (clock :: clocks) n q =
        (if max m b < L.length then replicateToFollower f clocks n' q'
          else some (.ok true, n', q')) ∧
      (l' = l ∧ Reaches L l B b ∨ l' = L.take b ∧ ¬ L <+: l) ∧
      Turning L l' b c b (max a b) f (max m b) (max m b) n' q' := by
  obtain ⟨q', l', ws, hreply, hl', hq'⟩ := ht.listener.install ht.whole hBb
    (ht.base_le.trans ht.commit_le) ht.snapshot.state n.nodeId clock
  obtain ⟨n', hresponse, hn', hstate, -⟩ := ht.toLeaderOf.installed ⟨n.snapshot.state⟩
  refine ⟨n', q', l', ?_, hl', hn', hstate ▸ hq'⟩
  by_cases hmore : max m b < L.length
  · simp only [replicateToFollower, ht.build_install hkb, hreply, hresponse, if_pos hmore]
  · simp only [replicateToFollower, ht.build_install hkb, hreply, hresponse, if_neg hmore]

theorem Turning.covered (ht : Turning L l b c B a f k m n q) (hkb : k < b) (hbB : b < B)
    (clock : Clock) (clocks : List Clock) :
    ∃ n' q', replicateToFollower f (clock :: clocks) n q =
        (if max m b < L.length then replicateToFollower f clocks n' q'
          else some (.ok true, n', q')) ∧
      Turning L l b c B a f (max m b) (max m b) n' q' := by
  obtain ⟨q', ws, hreply, hq'⟩ := ht.listener.covered ht.whole
    (r := snapshotRequest L b ⟨n.snapshot.state⟩ n.state.currentTerm n.nodeId) rfl rfl rfl hbB
    clock
  obtain ⟨n', hresponse, hn', hstate, -⟩ := ht.toLeaderOf.installed ⟨n.snapshot.state⟩
  refine ⟨n', q', ?_, hn', hstate ▸ hq'⟩
  by_cases hmore : max m b < L.length
  · simp only [replicateToFollower, ht.build_install hkb, hreply, hresponse, if_pos hmore]
  · simp only [replicateToFollower, ht.build_install hkb, hreply, hresponse, if_neg hmore]

/-! ## 4. The whole loop -/

/-- **Where some index that the leader still has is reached, the loop ends there.** -/
theorem Turning.append_ends {i : Nat} (hbi : b ≤ i) (hreach : Reaches L l B i)
    (clocks : List Clock) : ∀ {k : Nat} {n q : RaftNode}, Turning L l b c B a f k m n q →
    i ≤ k → k < clocks.length → ∃ n' q', replicateToFollower f clocks n q =
      some (.ok true, n', q') ∧ Finished L c B q' := by
  induction clocks with
  | nil => exact fun _ _ hlen => absurd hlen (Nat.not_lt_zero _)
  | cons clock clocks ih =>
    intro k n q ht hik hlen
    by_cases hk : Reaches L l B k
    · exact ht.accept (hbi.trans hik) hk clock clocks
    · have hlt : i < k := hik.lt_of_ne fun heq => hk (heq ▸ hreach)
      obtain ⟨n', q', hrun, ht'⟩ := ht.refuse (hbi.trans hik) hk clock clocks
      rw [hrun]
      rw [List.length_cons] at hlen
      exact ih ht' (by omega) (by omega)

/-- Where there is none, the leader comes down to its boundary. -/
theorem Turning.go_down (hb : 0 < b) (clocks : List Clock) : ∀ {k : Nat} {n q : RaftNode},
    Turning L l b c B a f k m n q → (∀ i, b ≤ i → i ≤ k → ¬ Reaches L l B i) →
    k ≤ clocks.length → ∃ clocks' n' q' k', replicateToFollower f clocks n q =
      replicateToFollower f clocks' n' q' ∧ Turning L l b c B a f k' m n' q' ∧ k' < b ∧
      clocks.length ≤ clocks'.length + k := by
  induction clocks with
  | nil =>
    intro k n q ht _ hlen
    exact ⟨[], n, q, k, rfl, ht, by rw [List.length_nil] at hlen; omega, Nat.zero_le _⟩
  | cons clock clocks ih =>
    intro k n q ht hnot hlen
    rcases Nat.lt_or_ge k b with hkb | hbk
    · exact ⟨_, n, q, k, rfl, ht, hkb, Nat.le_add_right _ _⟩
    · obtain ⟨n₁, q₁, hrun, ht₁⟩ := ht.refuse hbk (hnot k hbk le_rfl) clock clocks
      rw [List.length_cons] at hlen ⊢
      obtain ⟨clocks', n', q', k', hrun', ht', hk', hlen'⟩ := ih ht₁
        (fun i hbi hik => hnot i hbi (by omega)) (by omega)
      exact ⟨clocks', n', q', k', hrun.trans hrun', ht', hk', by omega⟩

/-- **Where nothing reaches the follower's boundary, the loop goes round for ever.** -/
theorem Turning.forever (hB : b = 0 ∨ b < B) (clocks : List Clock) :
    ∀ {k m : Nat} {n q : RaftNode}, Turning L l b c B a f k m n q → (b = 0 ∨ m < B) →
    (∀ i, b ≤ i → i ≤ k → ¬ Reaches L l B i) → replicateToFollower f clocks n q = none := by
  induction clocks with
  | nil => exact fun _ _ _ => rfl
  | cons clock clocks ih =>
    intro k m n q ht hm hnot
    rcases Nat.lt_or_ge k b with hkb | hbk
    · have hbB := hB.resolve_left (by omega)
      have hmB := hm.resolve_left (by omega)
      have hBL := ht.listener.base_le.trans ht.listener.known
      obtain ⟨n', q', hrun, ht'⟩ := ht.covered hkb hbB clock clocks
      rw [hrun, if_pos (by omega)]
      exact ih ht' (Or.inr (by omega)) fun i _ hi hreach => by
        have := hreach.1
        omega
    · obtain ⟨n', q', hrun, ht'⟩ := ht.refuse hbk (hnot k hbk le_rfl) clock clocks
      rw [hrun]
      exact ih ht' hm fun i hbi hik => hnot i hbi (by omega)

/-! ## 5. When the loop ends well -/

/-- A follower that has all of `L` has the leader's entries. -/
theorem Finished.replicated (ht : Turning L l b c B a f k m n q) {q' : RaftNode} {B' : Nat}
    (hq : Finished L c B' q') : Replicated n q' := by
  obtain ⟨l', hs', hp, hcommit⟩ := hq
  refine ⟨fun i hbi hBi hi => ?_, by rw [ht.commitIndex]; exact hcommit⟩
  rw [ht.shows.base] at hbi
  rw [hs'.base] at hBi
  rw [ht.shows.lastIndex] at hi
  obtain ⟨j, rfl⟩ : ∃ j : Nat, i = (j : Int) + 1 := ⟨(i - 1).toNat, by omega⟩
  rw [hs'.get_getElem? (by omega), ht.shows.get_getElem? (by omega),
    getElem?_of_isPrefix hp (by omega)]

/-- What a follower that has the leader's entries has at the last index. -/
theorem Turning.last_held (ht : Turning L l b c B a f k m n q) (hb : b < L.length)
    {q' : RaftNode} {l' : List LogEntry} {B' : Nat} (hs : Shows q'.log l' B') (hB' : B' < L.length)
    (hr : Replicated n q') : ∃ e, L[L.length - 1]? = some e ∧ l'[L.length - 1]? = some e := by
  obtain ⟨j, hj⟩ : ∃ j, L.length = j + 1 := ⟨L.length - 1, by omega⟩
  have hget := hr.entries (j + 1) (by rw [ht.shows.base]; omega) (by rw [hs.base]; omega)
    (by rw [ht.shows.lastIndex]; omega)
  rw [hs.get_getElem? (by omega), ht.shows.get_getElem? (by omega)] at hget
  have hy : L[j]? = some L[j] := List.getElem?_eq_getElem (by omega)
  rw [hj, Nat.add_sub_cancel]
  exact ⟨_, hy, hget.trans hy⟩

/-- Where the leader comes down to its boundary and its snapshot is not all it has to send, the
follower's boundary or the snapshot's is reached next. -/
theorem Turning.snapshot_then_append (ht : Turning L l b c B a f k m n q) (hb : 0 < b)
    (hnot : ∀ i, b ≤ i → i ≤ k → ¬ Reaches L l B i) (hB : B ≤ max m b)
    (hmore : max m b < L.length) {clocks : List Clock} (hlen : k + L.length + 1 < clocks.length) :
    ∃ n' q' B', replicateToFollower f clocks n q = some (.ok true, n', q') ∧
      Finished L c B' q' := by
  obtain ⟨_ | ⟨clock, clocks'⟩, n₁, q₁, k₁, hrun, ht₁, hk₁, hlen₁⟩ :=
    ht.go_down hb clocks hnot (by omega)
  · rw [List.length_nil] at hlen₁
    omega
  rw [List.length_cons] at hlen₁
  rcases Nat.lt_or_ge b B with hbB | hBb
  · obtain ⟨n₂, q₂, hrun₂, ht₂⟩ := ht₁.covered hk₁ hbB clock clocks'
    obtain ⟨n', q', hrun', hfin⟩ := ht₂.append_ends hbB.le ht₂.listener.reaches_base clocks'
      hB (by omega)
    rw [if_pos hmore, hrun'] at hrun₂
    exact ⟨n', q', B, hrun.trans hrun₂, hfin⟩
  · obtain ⟨n₂, q₂, l₂, hrun₂, -, ht₂⟩ := ht₁.install hk₁ hBb clock clocks'
    obtain ⟨n', q', hrun', hfin⟩ := ht₂.append_ends le_rfl ht₂.listener.reaches_base clocks'
      (le_max_right _ _) (by omega)
    rw [if_pos hmore, hrun'] at hrun₂
    exact ⟨n', q', b, hrun.trans hrun₂, hfin⟩

/-- Where it is, the loop ends with the snapshot.  A follower that does not have the boundary gives
up its log for it. -/
theorem Turning.snapshot_ends (ht : Turning L l b c B a f k m n q) (hb : 0 < b)
    (hnot : ∀ i, b ≤ i → i ≤ k → ¬ Reaches L l B i) (hmore : ¬ max m b < L.length)
    {clocks : List Clock} (hlen : k < clocks.length) :
    ∃ n' q' l', replicateToFollower f clocks n q = some (.ok true, n', q') ∧
      Shows q'.log l' (max b B) ∧ q'.state.commitIndex = (max a b : Nat) ∧
      (l' = l ∨ l' = L.take b ∧ B ≤ b ∧ ¬ L <+: l) := by
  have hBa := ht.listener.base_le
  obtain ⟨_ | ⟨clock, clocks'⟩, n₁, q₁, k₁, hrun, ht₁, hk₁, hlen₁⟩ :=
    ht.go_down hb clocks hnot (by omega)
  · rw [List.length_nil] at hlen₁
    omega
  rcases Nat.lt_or_ge b B with hbB | hBb
  · obtain ⟨n₂, q₂, hrun₂, ht₂⟩ := ht₁.covered hk₁ hbB clock clocks'
    rw [if_neg hmore] at hrun₂
    rw [max_eq_right hbB.le, max_eq_left (hbB.le.trans hBa)]
    exact ⟨n₂, q₂, l, hrun.trans hrun₂, ht₂.listener.shows, ht₂.listener.commitIndex, Or.inl rfl⟩
  · obtain ⟨n₂, q₂, l₂, hrun₂, hl₂, ht₂⟩ := ht₁.install hk₁ hBb clock clocks'
    rw [if_neg hmore] at hrun₂
    rw [max_eq_left hBb]
    exact ⟨n₂, q₂, l₂, hrun.trans hrun₂, ht₂.listener.shows, ht₂.listener.commitIndex,
      hl₂.imp (·.1) fun h => ⟨h.1, hBb, h.2⟩⟩

/-- A log that reaches the end of `L` goes through all of it. -/
theorem Reaches.isPrefix (hreach : Reaches L l B L.length) : L <+: l := by
  obtain ⟨-, -, heq⟩ := hreach
  rw [List.take_length] at heq
  exact heq ▸ List.take_prefix _ _

/-- **When the loop ends well**, in terms of the two whole logs. -/
theorem Turning.converges_iff (ht : Turning L l b c B a f k m n q) :
    Converges f n q ↔ (∃ i, b ≤ i ∧ i ≤ k ∧ Reaches L l B i) ∨
      (0 < b ∧ B ≤ max m b ∧ (b < L.length → m = L.length →
        Reaches L l B L.length ∧ c ≤ max a b)) := by
  have hBa := ht.listener.base_le
  have hBL := hBa.trans ht.listener.known
  have hbc := ht.base_le
  have hcL := ht.commit_le
  have hmL := ht.match_le
  by_cases hsome : ∃ i, b ≤ i ∧ i ≤ k ∧ Reaches L l B i
  · -- an AppendEntries is accepted
    obtain ⟨i, hbi, hik, hreach⟩ := hsome
    refine ⟨fun _ => Or.inl ⟨i, hbi, hik, hreach⟩, fun _ => ⟨k + 1, fun clocks hlen => ?_⟩⟩
    obtain ⟨n', q', hrun, hfin⟩ := ht.append_ends hbi hreach clocks hik hlen
    exact ⟨n', q', hrun, hfin.replicated ht⟩
  have hnot : ∀ i, b ≤ i → i ≤ k → ¬ Reaches L l B i :=
    fun i hbi hik hreach => hsome ⟨i, hbi, hik, hreach⟩
  rw [or_iff_right hsome]
  by_cases hsend : 0 < b ∧ B ≤ max m b
  swap
  · -- nothing ever gets through
    refine ⟨fun ⟨turns, hall⟩ => ?_, fun h => absurd ⟨h.1, h.2.1⟩ hsend⟩
    obtain ⟨n', q', hrun, -⟩ := hall (List.replicate turns ⟨0, 0⟩) (List.length_replicate).ge
    rw [ht.forever (by omega) _ (by omega) hnot] at hrun
    cases hrun
  obtain ⟨hb, hB⟩ := hsend
  by_cases hmore : max m b < L.length
  · refine ⟨fun _ => ⟨hb, hB, fun _ hm => by omega⟩,
      fun _ => ⟨k + L.length + 2, fun clocks hlen => ?_⟩⟩
    obtain ⟨n', q', B', hrun, hfin⟩ := ht.snapshot_then_append hb hnot hB hmore hlen
    exact ⟨n', q', hrun, hfin.replicated ht⟩
  constructor
  · rintro ⟨turns, hall⟩
    refine ⟨hb, hB, fun hbL hm => ?_⟩
    obtain ⟨clocks, hlen⟩ : ∃ clocks : List Clock, clocks.length = turns + k + 1 :=
      ⟨List.replicate _ ⟨0, 0⟩, List.length_replicate⟩
    obtain ⟨n', q', l', hrun, hs', hcommit, hl'⟩ := ht.snapshot_ends hb hnot hmore
      (show k < clocks.length by omega)
    obtain ⟨n₂, q₂, hrun₂, hrep⟩ := hall clocks (by omega)
    obtain ⟨rfl, rfl⟩ : n' = n₂ ∧ q' = q₂ := by
      rw [hrun] at hrun₂
      cases hrun₂
      exact ⟨rfl, rfl⟩
    have hle := hrep.commitIndex
    rw [ht.commitIndex, hcommit] at hle
    refine ⟨?_, by omega⟩
    rcases hBL.eq_or_lt with heq | hlt
    · exact heq ▸ ht.listener.reaches_base
    obtain ⟨e, hL, he⟩ := ht.last_held hbL hs' (by omega) hrep
    have hel := (List.getElem?_eq_some_iff.mp he).1
    rcases hl' with rfl | ⟨rfl, -, -⟩
    · refine ⟨hBL, by omega, ?_⟩
      have := ht.listener.matching _ _ _ he hL rfl
      rwa [Nat.sub_add_cancel (by omega)] at this
    · -- the snapshot alone does not have the last entry
      rw [List.length_take] at hel
      omega
  · rintro ⟨-, -, hrest⟩
    refine ⟨k + 1, fun clocks hlen => ?_⟩
    obtain ⟨n', q', l', hrun, hs', hcommit, hl'⟩ := ht.snapshot_ends hb hnot hmore hlen
    refine ⟨n', q', hrun, ?_⟩
    rcases Nat.lt_or_ge b L.length with hbL | hLb
    · obtain ⟨hreach, hle⟩ := hrest hbL (by omega)
      obtain rfl := hl'.resolve_right fun h => h.2.2 hreach.isPrefix
      exact Finished.replicated ht ⟨l', hs', hreach.isPrefix, by rw [hcommit]; omega⟩
    · -- the snapshot is all there is
      refine ⟨fun i hbi _ hi => ?_, ?_⟩
      · rw [ht.shows.base] at hbi
        rw [ht.shows.lastIndex] at hi
        omega
      · rw [ht.commitIndex, hcommit]
        omega

end Loop

/-! ## 6. In a cluster -/

section Cluster

variable {c : Cluster} {g : Grp} {v f : NodeId} {p q : Process}

/-- **A leader in the highest term has all that any member has committed.** -/
theorem Refines.leader_has (hr : Refines c g) (hp : c.process v = some p)
    (hlead : p.node.state.role = .leader) (hhighest : ∀ u ∈ c.members,
      (c.disk u).savedState.currentTerm ≤ p.node.state.currentTerm) (u : NodeId) :
    (g.peer u).log.take (g.peer u).commit <+: (g.peer v).log := by
  obtain ⟨hel, hlog, -⟩ := (hr.live hp).leading hlead
  obtain ⟨t, hdec, -⟩ := (hr.sound.peer u).decided
  rcases hdec with hnil | ⟨d, hd, -, hpre⟩
  · rw [hnil]
    exact List.nil_prefix
  · obtain ⟨⟨R, hR, hRQ, hcard⟩, hacks⟩ := hr.sound.history.decision_quorum d hd
    obtain ⟨w, hw⟩ := Finset.card_pos.mp (show 0 < R.card by omega)
    have hmember : w ∈ c.members := List.mem_toFinset.mp (hR hw)
    have hdt : d.term ≤ p.node.state.currentTerm :=
      ((hr.sound.peer w).acks _ _ (hacks w (hRQ hw))).1.trans
        ((hr.onDisk w).term ▸ hhighest w hmember)
    rw [hlog]
    exact hpre.trans (hr.sound.history.decision_held hd hel hdt)

/-- The two sides of the loop, when it starts. -/
theorem Refines.turning (hr : Refines c g) (hp : c.process v = some p) (hq : c.process f = some q)
    (hlead : p.node.state.role = .leader) (hhighest : ∀ u ∈ c.members,
      (c.disk u).savedState.currentTerm ≤ p.node.state.currentTerm) (hfv : f ≠ v)
    {r : LeaderReplication} (htable : p.node.replication = some r) :
    ∃ k m : Nat, r.nextIndex f = (k : Int) + 1 ∧ r.matchIndex f = m ∧
      Turning (g.peer v).log (g.peer f).log (g.peer v).base (g.peer v).commit (g.peer f).base
        (g.peer f).commit f k m p.node q.node := by
  have hl := hr.live hp
  have hlf := hr.live hq
  have hm := hl.mirrors
  have hmf := hlf.mirrors
  have htab := hl.table r htable
  obtain ⟨k, hk⟩ : ∃ k : Nat, r.nextIndex f = (k : Int) + 1 :=
    ⟨(r.nextIndex f - 1).toNat, by have := htab.next_pos f; omega⟩
  obtain ⟨m, hmatch⟩ := Int.eq_ofNat_of_zero_le (htab.match_nonneg f)
  have hnext := htab.next_le f
  have hle := htab.match_le f
  have hhas := hr.leader_has hp hlead hhighest f
  have hcommit := List.length_take_of_le hlf.peer.commit_le
  have hknown := hcommit ▸ hhas.length_le
  have htake : (g.peer f).log.take (g.peer f).commit = (g.peer v).log.take (g.peer f).commit := by
    have := prefix_eq_take hhas
    rw [hcommit] at this
    exact this.symm
  have hmember : f ∈ r.followers := by
    rw [htab.followers]
    exact Members.mem_others.mpr ⟨hlf.member, hfv⟩
  refine ⟨k, m, hk, hmatch, ⟨hl.log_whole, hlead, hl.stateId.trans hl.id.symm, hm.log, hm.snapshot,
    hm.commit, hl.peer.commit_le, hl.peer.base_le, by omega, by omega, r, htable, hmember, hk,
    hmatch⟩, ⟨⟨hmf.log, hlf.log_whole.contiguous, hmf.snapshot.index, hlf.peer.base_le,
    hlf.peer.commit_le, hknown, htake, fun i x y hx hy hxy => ?_, hmf.commit, hmf.applied, ?_⟩, ?_⟩⟩
  · exact hlf.peer.traced.matching hl.peer.traced hx hy hxy
  · exact htake ▸ hmf.store
  · have := hhighest f hlf.member
    rwa [hlf.saved.state] at this

/-- An index the leader still has is reached where the logs agree at it. -/
theorem Turning.agreesAt_iff {L l : List LogEntry} {b c B a k m : Nat} {n q : RaftNode}
    (ht : Turning L l b c B a f k m n q) {i : Nat} :
    AgreesAt n q i ↔ b ≤ i ∧ i ≤ L.length ∧ Reaches L l B i := by
  unfold AgreesAt
  rw [ht.shows.base, ht.shows.lastIndex, Int.ofNat_le, Int.ofNat_le]
  constructor
  · rintro ⟨hb, hi, hterm⟩
    rw [ht.shows.termAt hb hi] at hterm
    exact ⟨hb, hi, (ht.listener.reaches_iff hi).mp hterm⟩
  · rintro ⟨hb, hi, hreach⟩
    rw [ht.shows.termAt hb hi]
    exact ⟨hb, hi, (ht.listener.reaches_iff hi).mpr hreach⟩

theorem Turning.appendable_iff {L l : List LogEntry} {b c B a k m : Nat} {n q : RaftNode}
    (ht : Turning L l b c B a f k m n q) {r : LeaderReplication}
    (hk : r.nextIndex f = (k : Int) + 1) :
    Appendable f r n q ↔ ∃ i, b ≤ i ∧ i ≤ k ∧ Reaches L l B i := by
  have hkL := ht.next_le
  constructor
  · rintro ⟨i, hi, hagrees⟩
    have hbi := hagrees.1
    rw [ht.shows.base] at hbi
    obtain ⟨j, rfl⟩ := Int.eq_ofNat_of_zero_le ((Int.natCast_nonneg b).trans hbi)
    obtain ⟨hb, -, hreach⟩ := ht.agreesAt_iff.mp hagrees
    exact ⟨j, hb, by omega, hreach⟩
  · rintro ⟨i, hb, hi, hreach⟩
    exact ⟨i, by omega, ht.agreesAt_iff.mpr ⟨hb, hi.trans hkL, hreach⟩⟩

theorem Turning.installable_iff {L l : List LogEntry} {b c B a k m : Nat} {n q : RaftNode}
    (ht : Turning L l b c B a f k m n q) {r : LeaderReplication}
    (hm : r.matchIndex f = m) :
    Installable f r n q ↔ 0 < b ∧ B ≤ max m b ∧ (b < L.length → m = L.length →
      Reaches L l B L.length ∧ c ≤ max a b) := by
  have hbL := ht.base_le.trans ht.commit_le
  unfold Installable
  rw [ht.shows.base, ht.listener.shows.base, hm, ht.shows.lastIndex, ht.agreesAt_iff,
    ht.commitIndex, ht.listener.commitIndex]
  simp only [hbL, le_refl, true_and]
  refine and_congr (by omega) (and_congr (by omega) ?_)
  refine imp_congr (by omega) (imp_congr (by omega) (and_congr Iff.rfl (by omega)))

/-- A leader without a table returns `False` at once; one with a table runs the loop. -/
theorem Refines.converges_iff (hr : Refines c g) (hp : c.process v = some p)
    (hq : c.process f = some q) (hlead : p.node.state.role = .leader) (hhighest : ∀ u ∈ c.members,
      (c.disk u).savedState.currentTerm ≤ p.node.state.currentTerm) (hfv : f ≠ v) :
    Converges f p.node q.node ↔ ∃ r, p.node.replication = some r ∧
      (Appendable f r p.node q.node ∨ Installable f r p.node q.node) := by
  rcases htable : p.node.replication with _ | r
  · refine ⟨fun ⟨turns, hall⟩ => ?_, by simp⟩
    obtain ⟨n', q', hrun, -⟩ := hall (List.replicate (turns + 1) ⟨0, 0⟩)
      (by rw [List.length_replicate]; exact Nat.le_succ _)
    have hbuild : RaftNode.replicateBuild f p.node = ⟨.ok none, p.node, []⟩ := by
      simp only [RaftNode.replicateBuild, NodeM.bind_run, NodeM.get_run, NodeM.andThen_ok,
        NodeM.behind_nil, NodeM.ite_run, hlead, ne_eq, not_true_eq_false, if_false, htable,
        NodeM.pure_run]
    rw [List.replicate_succ, RaftNode.replicateToFollower, hbuild] at hrun
    cases hrun
  · obtain ⟨k, m, hk, hm, ht⟩ := hr.turning hp hq hlead hhighest hfv htable
    rw [ht.converges_iff, ← ht.appendable_iff hk, ← ht.installable_iff hm]
    simp

/-- **Replication to a reachable follower converges** if and only if the leader's table has an index
below the follower's next one at which the logs agree, or the leader has a snapshot that gets the
follower there. -/
theorem replication_converges {members : Members} (hc : Cluster.Reachable members c)
    (hp : c.process v = some p) (hq : c.process f = some q) (hfv : f ≠ v)
    (hlead : p.node.state.role = .leader) (hhighest : ∀ u ∈ members,
      (c.disk u).savedState.currentTerm ≤ p.node.state.currentTerm) :
    Converges f p.node q.node ↔ ∃ r, p.node.replication = some r ∧
      (Appendable f r p.node q.node ∨ Installable f r p.node q.node) := by
  obtain ⟨g, hr, rfl⟩ := hc.refines
  exact hr.converges_iff hp hq hlead hhighest hfv

end Cluster

/-! ## 7. Two followers -/

/-- `v` leads in `term` with its whole log, will send `f` the entries from 1 on, and `first` is what
`f` says of index 0. -/
def sendsAll (c : Cluster) (v f : NodeId) (term : Int) (first : Option Int) : Bool :=
  match c.process v, c.process f with
  | some p, some q => decide (p.node.state.role = .leader ∧ p.node.state.currentTerm = term ∧
      p.node.log.baseIndex = 0 ∧ 0 ≤ p.node.log.lastIndex ∧ p.node.log.termAt 0 = some 0 ∧
      q.node.log.termAt 0 = first) &&
      p.node.replication.any fun r => decide (r.nextIndex f = 1)
  | _, _ => false

theorem sendsAll_spec {c : Cluster} {v f : NodeId} {term : Int} {first : Option Int}
    (h : sendsAll c v f term first = true) :
    ∃ p q r, c.process v = some p ∧ c.process f = some q ∧ p.node.state.role = .leader ∧
      p.node.state.currentTerm = term ∧ p.node.log.baseIndex = 0 ∧ p.node.replication = some r ∧
      r.nextIndex f = 1 ∧ (AgreesAt p.node q.node 0 ↔ first = some 0) := by
  unfold sendsAll at h
  split at h
  · rename_i p q hp hq
    obtain ⟨hall, htable⟩ := Bool.and_eq_true_iff.mp h
    obtain ⟨hrole, hterm, hbase, hlast, hleader, hfollower⟩ := of_decide_eq_true hall
    obtain ⟨r, hr, hnext⟩ := (Option.any_eq_true _ _).mp htable
    refine ⟨p, q, r, hp, hq, hrole, hterm, hbase, hr, of_decide_eq_true hnext, ?_⟩
    unfold AgreesAt
    rw [hbase, hleader, hfollower]
    simp [hlast]
  · cases h

/-- The terms on the disks of the three members. -/
def highestTerm (c : Cluster) (t : Int) : Bool :=
  threeMembers.ids.all fun u => (c.disk u).savedState.currentTerm ≤ t

theorem highestTerm_le {c : Cluster} {t : Int} (h : highestTerm c t = true) :
    ∀ u ∈ threeMembers, (c.disk u).savedState.currentTerm ≤ t := by
  intro u hu
  exact of_decide_eq_true (List.all_eq_true.mp h u hu)

/-- A follower that has heard nothing yet is brought up to date. -/
theorem replication_converges_firstWrite : ∃ p q, afterFirstWrite.process "a" = some p ∧
    afterFirstWrite.process "c" = some q ∧ Converges "c" p.node q.node := by
  obtain ⟨p, q, r, hp, hq, hlead, hterm, -, hr, hnext, hagrees⟩ := sendsAll_spec
    (show sendsAll afterFirstWrite "a" "c" 1 (some 0) = true by decide +kernel)
  refine ⟨p, q, hp, hq, (replication_converges afterFirstWrite_reachable hp hq (by decide) hlead
    (by rw [hterm]; exact highestTerm_le (by decide +kernel))).mpr ⟨r, hr, Or.inl ⟨0, ?_, ?_⟩⟩⟩
  · rw [hnext]
    decide
  · exact hagrees.mpr rfl

/-- The leader sends the write to `c`, which commits it and compacts its log; the answer is lost. -/
def lostAnswer : List Action := [
  .run "a" .replicateLog,
  .run "a" (.lockReplication 2),
  .run "a" (.beginRound 2),
  .run "a" (.submitTask 2 "c"),
  .run "a" (.workerBuild "c"),
  .run "c" (.deliver 3 3000),
  .run "c" .createSnapshot,
  .run "a" (.workerFail "c")]

theorem lostAnswer_runs : (afterFirstWrite.runs lostAnswer).isSome = true := by decide +kernel

/-- **A follower that has compacted its log past `next_index` is never caught up with**: it refuses
the entries from index 1 on, for ever. -/
theorem replication_livelocks : ∃ c p q, Cluster.Reachable threeMembers c ∧
    c.process "a" = some p ∧ c.process "c" = some q ∧ p.node.state.role = .leader ∧
    (∀ u ∈ threeMembers, (c.disk u).savedState.currentTerm ≤ p.node.state.currentTerm) ∧
    ¬ Converges "c" p.node q.node := by
  have hreach : Cluster.Reachable threeMembers
      ((afterFirstWrite.runs lostAnswer).get lostAnswer_runs) :=
    afterFirstWrite_reachable.trans (Cluster.runs_leads (Option.some_get lostAnswer_runs).symm)
  obtain ⟨p, q, r, hp, hq, hlead, hterm, hbase, hr, hnext, hagrees⟩ := sendsAll_spec
    (show sendsAll ((afterFirstWrite.runs lostAnswer).get lostAnswer_runs) "a" "c" 1 none = true by
      decide +kernel)
  have hhighest : ∀ u ∈ threeMembers, (((afterFirstWrite.runs lostAnswer).get
      lostAnswer_runs).disk u).savedState.currentTerm ≤ p.node.state.currentTerm := by
    rw [hterm]
    exact highestTerm_le (by decide +kernel)
  refine ⟨_, p, q, hreach, hp, hq, hlead, hhighest, ?_⟩
  obtain ⟨g, hg, hmembers⟩ := hreach.refines
  rw [hg.converges_iff hp hq hlead (by rw [hmembers]; exact hhighest) (by decide)]
  rintro ⟨r', hr', ⟨i, hi, hat⟩ | ⟨hpos, -⟩⟩
  · obtain rfl := Option.some.inj (hr.symm.trans hr')
    have hbi := hat.1
    obtain rfl : i = 0 := by omega
    exact absurd (hagrees.mp hat) (by decide)
  · omega

end PyRaftKv
