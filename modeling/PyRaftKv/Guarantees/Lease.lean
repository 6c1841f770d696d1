/-
# The read lease

A barrier that a quorum confirms gives the leader a lease of `readLeaseDuration`, and while it
lasts reads are served without another barrier.  Nothing in the source keeps a follower from voting
while a lease that it confirmed lasts, and the lease is counted from the end of the barrier.  So a
leader may have a valid lease while another leads in a later term (`lease_overtaken`).

The harm is done by the votes of the members whose confirmation backs a lease: one that is still
valid, or one that a barrier under way may yet begin.  In a run in which none of them votes in a
later term within `minTimeout` of the last request it accepted, and no lease begins later than
`minTimeout - readLeaseDuration` after its barrier, a valid lease excludes every later leader
(`lease_excludes`).
-/
import PyRaftKv.Guarantees.Barrier
import PyRaftKv.Refinement.Inversion

open Consensus

namespace PyRaftKv

open Cluster

/-! ## 1. Only a barrier changes the lease -/

/-- The lease on record is the same. -/
structure SameLease (n n' : RaftNode) : Prop where
  term : n'.lastReadQuorumTerm = n.lastReadQuorumTerm
  time : n'.lastReadQuorumTime = n.lastReadQuorumTime

theorem SameLease.refl (n : RaftNode) : SameLease n n := ⟨rfl, rfl⟩

theorem SameLease.trans {n n' n'' : RaftNode} (h : SameLease n n') (h' : SameLease n' n'') :
    SameLease n n'' := ⟨h'.term.trans h.term, h'.time.trans h.time⟩

instance : Std.Refl SameLease := ⟨SameLease.refl⟩
instance : IsTrans RaftNode SameLease := ⟨fun _ _ _ => SameLease.trans⟩

/-- A stretch that leaves the lease alone, wherever it starts. -/
abbrev NodeM.Leasing {α : Type} (m : NodeM α) : Prop := Keeping SameLease m

namespace RaftNode

open NodeM (Leasing)

theorem applyCommitted_leases : Leasing applyCommitted := fun _ => ⟨rfl, rfl⟩

theorem persistState_leases : Leasing persistState := .bind .get fun _ => .persist _

theorem persistTerm_leases (previousTerm : Int) : Leasing (persistTerm previousTerm) :=
  .bind .get fun _ => .ite persistState_leases (.pure ())

theorem becomeFollower_leases (term : Int) (leaderId : Option NodeId) :
    Leasing (becomeFollower term leaderId) :=
  .bind .get fun _ => .bind (.lift _) fun _ => .modify fun _ => ⟨rfl, rfl⟩

theorem dropReplication_leases : Leasing (NodeM.modify dropReplication) := by
  refine .modify fun n => ?_
  obtain ⟨replication, heq⟩ := dropReplication_only n
  rw [heq]
  exact ⟨rfl, rfl⟩

theorem initializeLeaderReplication_leases : Leasing initializeLeaderReplication := by
  refine .bind .get fun n => .ite (.modify fun _ => ⟨rfl, rfl⟩) ?_
  exact .ite (.bind (.lift _) fun _ => .modify fun _ => ⟨rfl, rfl⟩) (.pure ())

theorem createSnapshot_leases : Leasing createSnapshot := by
  refine .bind .get fun n => .ite (.pure _) ?_
  split
  · exact .raise _
  · refine .bind (.lift _) fun _ => .bind (.persist _) fun _ => .bind (.lift _) fun _ => ?_
    refine .bind (.lift _) fun _ => .bind (.persist _) fun _ => .bind persistState_leases fun _ =>
      ?_
    exact .bind (.modify fun n => ⟨rfl, rfl⟩) fun _ => .pure _

theorem handleRequestVote_leases (clock : Clock) (r : RequestVoteRequest) :
    Leasing (handleRequestVote clock r) := by
  refine .bind .get fun n => .bind (.lift _) fun _ => .bind (.modify fun _ => ⟨rfl, rfl⟩) fun _ =>
    ?_
  refine .bind persistState_leases fun _ => ?_
  exact .ite (.bind (.modify fun _ => ⟨rfl, rfl⟩) fun _ => .bind dropReplication_leases fun _ =>
    .pure _) (.bind dropReplication_leases fun _ => .pure _)

theorem persistLogChange_leases (before after : List LogEntry) :
    Leasing (persistLogChange before after) := by
  refine .ite (.pure _) ?_
  simp only
  split
  · exact .persist _
  · exact .bind (.lift _) fun _ => .persist _

theorem handleAppendEntries_leases (clock : Clock) (r : AppendEntriesRequest) :
    Leasing (handleAppendEntries clock r) := by
  have hend (a : AppendEntriesResponse) : Leasing (do
      if a.success then
        NodeM.modify fun n => { n with timer := .reset clock.now clock.timeout }
      NodeM.modify dropReplication
      return a) :=
    .ite (.bind (.modify fun n => ⟨rfl, rfl⟩) fun _ =>
      .bind dropReplication_leases fun _ => .pure _)
      (.bind dropReplication_leases fun _ => .pure _)
  refine .bind .get fun n => ?_
  split
  refine .bind (.modify fun _ => ⟨rfl, rfl⟩) fun _ => .bind (.lift _) fun a => ?_
  refine .bind (persistLogChange_leases _ _) fun _ => ?_
  exact .ite (.bind persistState_leases fun _ => hend a) (hend a)

theorem handleInstallSnapshot_leases (clock : Clock) (r : InstallSnapshotRequest) :
    Leasing (handleInstallSnapshot clock r) := by
  have hrefuse (previousTerm : Int) (a : InstallSnapshotResponse) :
      Leasing (do persistTerm previousTerm; return a) :=
    .bind (persistTerm_leases _) fun _ => .pure _
  have htimer (a : InstallSnapshotResponse) : Leasing (do
      NodeM.modify fun n => { n with timer := .reset clock.now clock.timeout }
      return a) := .bind (.modify fun _ => ⟨rfl, rfl⟩) fun _ => .pure _
  refine .bind .get fun n => .ite (.pure _) <| .bind (becomeFollower_leases _ _) fun _ => ?_
  refine .bind (.modify fun _ => ⟨rfl, rfl⟩) fun _ => .bind .get fun n => ?_
  refine .ite (hrefuse _ _) <| .ite (.bind (persistTerm_leases _) fun _ => htimer _) <|
    .ite (hrefuse _ _) ?_
  refine .bind (.lift _) fun _ => .bind (.lift _) fun _ => ?_
  split
  · exact hrefuse _ _
  · refine .ite (hrefuse _ _) <| .bind (.persist _) fun _ => .bind (.persist _) fun _ => ?_
    refine .bind (.modify fun _ => ⟨rfl, rfl⟩) fun _ => .bind applyCommitted_leases fun _ => ?_
    exact .bind persistState_leases fun _ => htimer _

theorem handleTimeoutNow_leases (r : TimeoutNowRequest) : Leasing (handleTimeoutNow r) := by
  refine .bind .get fun n => .ite (.pure _) ?_
  refine .ite (.bind (becomeFollower_leases _ _) fun _ => ?_) ?_
  all_goals
    refine .bind .get fun _ => .bind (persistTerm_leases _) fun _ => ?_
    exact .ite (.bind (.modify fun _ => ⟨rfl, rfl⟩) fun _ => .pure _) (.pure _)

theorem tickStart_leases (clock : Clock) : Leasing (tickStart clock) := by
  refine .bind .get fun n => .bind (.lift _) fun x => ?_
  obtain ⟨requests, state, timer, election⟩ := x
  have hlead : Leasing (if state.role = .leader then (do initializeLeaderReplication; return none)
      else pure requests : NodeM (Option RequestVoteRequest)) :=
    .ite (.bind initializeLeaderReplication_leases fun _ => .pure _) (.pure _)
  refine .bind (.modify fun _ => ⟨rfl, rfl⟩) fun _ => ?_
  exact .ite (.bind persistState_leases fun _ => hlead) hlead

theorem tickResponse_leases (peerId : NodeId) (request : RequestVoteRequest)
    (response : RequestVoteResponse) : Leasing (tickResponse peerId request response) := by
  refine .bind .get fun n => .ite (.pure _) <| .bind (.lift _) fun x => ?_
  obtain ⟨won, election, state⟩ := x
  have hrole : Leasing (if state.role = .leader then initializeLeaderReplication
      else if state.role = .follower then NodeM.modify fun n => { n with replication := none }
      else pure () : NodeM Unit) :=
    .ite initializeLeaderReplication_leases (.ite (.modify fun _ => ⟨rfl, rfl⟩) (.pure _))
  refine .bind (.modify fun _ => ⟨rfl, rfl⟩) fun _ => ?_
  exact .ite (.bind persistState_leases fun _ => hrole) hrole

theorem replicateBuild_leases (f : NodeId) : Leasing (replicateBuild f) := by
  refine .bind .get fun n => .ite (.pure _) ?_
  split
  · exact .pure _
  · exact .ite (.ite (.raise _) (.pure _)) (.bind (.lift _) fun _ => .pure _)

theorem replicateResponse_leases (f : NodeId) (request : ReplicationRequest) (term : Int)
    (success : Bool) : Leasing (replicateResponse f request term success) := by
  refine .bind .get fun n => ?_
  split
  · exact .pure _
  refine .ite (.pure _) <| .ite (.bind (becomeFollower_leases _ _) fun _ =>
    .bind persistState_leases fun _ => .bind (.modify fun _ => ⟨rfl, rfl⟩) fun _ => .pure _) ?_
  split
  · refine .ite (.pure _) ?_
    exact .bind (.lift _) fun _ => .bind (.modify fun _ => ⟨rfl, rfl⟩) fun _ => .pure _
  · refine .ite ?_ ?_
    all_goals exact .bind (.lift _) fun _ => .bind (.modify fun _ => ⟨rfl, rfl⟩) fun _ => .pure _

theorem replicateLogStart_leases : Leasing replicateLogStart :=
  .bind .get fun _ => .ite (.raise _) <| .bind initializeLeaderReplication_leases fun _ =>
    .bind .get fun _ => .ite (.raise _) (.pure _)

theorem roundStart_leases : Leasing roundStart :=
  .bind .get fun _ => .ite (.pure _) <| .bind initializeLeaderReplication_leases fun _ =>
    .bind .get fun _ => .pure _

theorem replicateLogFinish_leases : Leasing replicateLogFinish := by
  refine .bind .get fun n => ?_
  split
  · exact .pure _
  · refine .ite (.pure _) <| .bind (.modify fun _ => ⟨rfl, rfl⟩) fun _ => ?_
    exact .ite (.bind persistState_leases fun _ => applyCommitted_leases) (.pure _)

theorem submitStart_leases (commands : List RaftCommand) : Leasing (submitStart commands) := by
  refine .bind .get fun n => .ite (.pure _) <| .ite (.raise _) <| .ite (.raise _) ?_
  refine .bind (.lift _) fun _ => .bind (.lift _) fun _ => ?_
  refine .bind (.modify fun _ => ⟨rfl, rfl⟩) fun _ => .bind (.persist _) fun _ => ?_
  exact .bind initializeLeaderReplication_leases fun _ => .pure _

theorem submitResults_leases (es : List LogEntry) : Leasing (submitResults es) :=
  .bind .get fun _ => .ite (.pure _) (.pure _)

theorem getStart_leases (key : String) (now : Nat) : Leasing (getStart key now) :=
  .bind .get fun _ => .ite (.raise _) <| .ite
    (.bind applyCommitted_leases fun _ => .bind .get fun _ => .pure _) (.pure _)

theorem confirmStart_leases : Leasing confirmStart := by
  refine .bind .get fun n => .ite (.raise _) <| .bind initializeLeaderReplication_leases fun _ => ?_
  refine .bind .get fun _ => ?_
  split
  · exact .raise _
  · exact .pure _

theorem getFinish_leases (key : String) (now : Nat) : Leasing (getFinish key now) :=
  .bind .get fun _ => .ite (.raise _) (.pure _)

theorem transferStart_leases (targetId : Option NodeId) : Leasing (transferStart targetId) := by
  have hflag : Leasing (NodeM.modify fun n => { n with leadershipTransferInProgress := true }) :=
    .modify fun n => ⟨rfl, rfl⟩
  refine .bind .get fun n => .ite (.raise _) <| .bind initializeLeaderReplication_leases fun _ => ?_
  refine .bind .get fun _ => ?_
  split
  · exact .pure _
  · split
    · exact .ite (.raise _) (.bind hflag fun _ => .pure _)
    · exact .bind hflag fun _ => .pure _

theorem transferSelect_leases (targetId : Option NodeId) (term : Int)
    (results : NodeId → Option Bool) : Leasing (transferSelect targetId term results) := by
  refine .bind .get fun _ => ?_
  split
  · exact .pure _
  · exact .ite (.pure _) (.pure _)

theorem transferResponse_leases (term : Int) (response : TimeoutNowResponse) :
    Leasing (transferResponse term response) := by
  have hdrop : Leasing (NodeM.modify fun n => { n with replication := none }) :=
    .modify fun _ => ⟨rfl, rfl⟩
  refine .bind .get fun _ => .ite (.pure _) <| .ite ?_ <| .ite (.pure _) ?_
  · exact .bind (becomeFollower_leases _ _) fun _ => .bind persistState_leases fun _ =>
      .bind hdrop fun _ => .pure _
  · exact .bind (becomeFollower_leases _ _) fun _ => .bind hdrop fun _ => .pure _

theorem transferEnd_leases : Leasing transferEnd := .modify fun _ => ⟨rfl, rfl⟩

/-- What `_confirm_read_quorum` checks before it begins the lease. -/
def HasReadQuorum (n : RaftNode) (readTerm : Int) (confirmed : List NodeId) : Prop :=
  n.state.role = .leader ∧ n.state.currentTerm = readTerm ∧
    n.members.quorumSize ≤ 1 + confirmed.length

instance (n : RaftNode) (readTerm : Int) (confirmed : List NodeId) :
    Decidable (n.HasReadQuorum readTerm confirmed) := inferInstanceAs (Decidable (_ ∧ _ ∧ _))

/-- **The end of a barrier** without a quorum changes nothing of the lease. -/
theorem confirmFinish_leases (readTerm : Int) (confirmed : List NodeId) (now : Nat)
    (n : RaftNode) : SameLease n (confirmFinish readTerm confirmed now n).node ∨
      n.HasReadQuorum readTerm confirmed := by
  simp only [confirmFinish, NodeM.bind_run, NodeM.get_run, NodeM.andThen_ok, NodeM.behind_nil,
    NodeM.ite_run, NodeM.raise_run, NodeM.modify_run]
  split
  · exact Or.inl (.refl n)
  rename_i hlead
  split
  · exact Or.inl (.refl n)
  rename_i hsize
  rw [not_or, not_not, not_not] at hlead
  exact Or.inr ⟨hlead.1, hlead.2, not_lt.mp hsize⟩

/-- With a quorum it begins a lease. -/
theorem confirmFinish_begins {readTerm : Int} {confirmed : List NodeId} {n : RaftNode}
    (h : n.HasReadQuorum readTerm confirmed) (now : Nat) :
    (confirmFinish readTerm confirmed now n).node.lastReadQuorumTerm = some readTerm ∧
      (confirmFinish readTerm confirmed now n).node.lastReadQuorumTime = some now := by
  obtain ⟨hrole, hterm, hsize⟩ := h
  simp only [confirmFinish, NodeM.bind_run, NodeM.get_run, NodeM.andThen_ok, NodeM.behind_nil,
    NodeM.ite_run, NodeM.raise_run, NodeM.modify_run]
  rw [if_neg (by rw [not_or, not_not, not_not]; exact ⟨hrole, hterm⟩),
    if_neg (not_lt.mpr hsize)]
  exact ⟨rfl, rfl⟩

theorem hasValidReadLease_iff {n : RaftNode} {now : Nat} :
    n.hasValidReadLease now = true ↔ n.state.role = .leader ∧
      n.lastReadQuorumTerm = some n.state.currentTerm ∧ ∃ time, n.lastReadQuorumTime = some time ∧
        time ≤ now ∧ now < time + readLeaseDuration := by
  unfold hasValidReadLease
  rcases htime : n.lastReadQuorumTime with _ | time
  · simp
  · simp only [Bool.and_eq_true, decide_eq_true_eq, Option.some.injEq, exists_eq_left', and_assoc]
    refine and_congr_right fun _ => and_congr_right fun _ => and_congr_right fun hle => ?_
    omega

end RaftNode

/-- The stretch that may begin a lease ends a barrier with a quorum. -/
theorem StretchOf.lease {c : Cluster} {p : Process} {op : Op} {n' : RaftNode}
    (h : StretchOf c p op n') : SameLease p.node n' ∨ ∃ i key acked b, op = .confirmFinish i ∧
      p.calls i = some (.confirming key acked b) ∧ p.node.HasReadQuorum b.readTerm b.confirmed := by
  cases h with
  | tickStart => exact Or.inl (RaftNode.tickStart_leases _ _)
  | tickResponse => exact Or.inl (RaftNode.tickResponse_leases _ _ _ _)
  | requestVote => exact Or.inl (RaftNode.handleRequestVote_leases _ _ _)
  | appendEntries => exact Or.inl (RaftNode.handleAppendEntries_leases _ _ _)
  | installSnapshot => exact Or.inl (RaftNode.handleInstallSnapshot_leases _ _ _)
  | timeoutNow => exact Or.inl (RaftNode.handleTimeoutNow_leases _ _)
  | createSnapshot => exact Or.inl (RaftNode.createSnapshot_leases _)
  | replicateBuild => exact Or.inl (RaftNode.replicateBuild_leases _ _)
  | replicateResponse => exact Or.inl (RaftNode.replicateResponse_leases _ _ _ _ _)
  | submitStart => exact Or.inl (RaftNode.submitStart_leases _ _)
  | replicateLogStart => exact Or.inl (RaftNode.replicateLogStart_leases _)
  | transferStart => exact Or.inl (RaftNode.transferStart_leases _ _)
  | roundStart => exact Or.inl (RaftNode.roundStart_leases _)
  | replicateLogFinish => exact Or.inl (RaftNode.replicateLogFinish_leases _)
  | transferSelect => exact Or.inl (RaftNode.transferSelect_leases _ _ _ _)
  | transferMiss => exact Or.inl ((RaftNode.transferSelect_leases _ _ _ _).trans
      (RaftNode.transferEnd_leases _))
  | submitResults => exact Or.inl (RaftNode.submitResults_leases _ _)
  | getStart => exact Or.inl (RaftNode.getStart_leases _ _ _)
  | confirmStart => exact Or.inl (RaftNode.confirmStart_leases _)
  | @confirmFinish i key acked b hcall =>
    exact (RaftNode.confirmFinish_leases _ _ _ _).imp_right fun hquorum =>
      ⟨i, key, acked, b, rfl, hcall, hquorum⟩
  | getFinish => exact Or.inl (RaftNode.getFinish_leases _ _ _)
  | transferResponse => exact Or.inl ((RaftNode.transferResponse_leases _ _ _).trans
      (RaftNode.transferEnd_leases _))
  | transferFail => exact Or.inl (RaftNode.transferEnd_leases _)
  | roundRaise =>
    exact Or.inl ((RaftNode.roundStart_leases _).trans (RaftNode.transferEnd_leases _))
  | same => exact Or.inl (.refl _)

/-! ## 2. Timely runs -/

/-- In the step from `c` to `c'` member `v` casts a vote: its state record has another. -/
def CastsVote (c c' : Cluster) (v : NodeId) : Prop :=
  (c'.disk v).savedState.votedFor ≠ none ∧
    ¬ ((c'.disk v).savedState.currentTerm = (c.disk v).savedState.currentTerm ∧
      (c'.disk v).savedState.votedFor = (c.disk v).savedState.votedFor)

/-- The barrier that an action ends with a lease, and its member. -/
def Cluster.leaseBegun (c : Cluster) : Action → Option (NodeId × Barrier)
  | .run v (.confirmFinish i) => do
    let p ← c.process v
    let b ← c.barrier v i
    if p.node.HasReadQuorum b.readTerm b.confirmed then some (v, b) else none
  | _ => none

theorem Cluster.leaseBegun_eq_some {c : Cluster} {a : Action} {v : NodeId} {b : Barrier} :
    c.leaseBegun a = some (v, b) ↔ ∃ i p key acked, a = .run v (.confirmFinish i) ∧
      c.process v = some p ∧ p.calls i = some (.confirming key acked b) ∧
        p.node.HasReadQuorum b.readTerm b.confirmed := by
  constructor
  · intro h
    unfold Cluster.leaseBegun at h
    split at h
    · obtain ⟨p, hp, h⟩ := Option.bind_eq_some_iff.mp h
      obtain ⟨b', hb, h⟩ := Option.bind_eq_some_iff.mp h
      split at h
      · rename_i i hquorum
        cases h
        obtain ⟨q, key, acked, hq, hcall⟩ := Cluster.barrier_eq_some.mp hb
        obtain rfl : p = q := Option.some.inj (hp.symm.trans hq)
        exact ⟨_, p, key, acked, rfl, hp, hcall, hquorum⟩
      · cases h
    · cases h
  · rintro ⟨i, p, key, acked, rfl, hp, hcall, hquorum⟩
    have hb : c.barrier v i = some b := Cluster.barrier_eq_some.mpr ⟨p, key, acked, hp, hcall⟩
    simp only [Cluster.leaseBegun, hp, hb, Option.bind_eq_bind, Option.bind_some, if_pos hquorum]

/-- For each member, those whose confirmation its lease rests on. -/
abbrev Backers := NodeId → List NodeId

def Backers.after (w : Backers) (c : Cluster) (a : Action) : Backers :=
  match c.leaseBegun a with
  | some (v, b) => Function.update w v b.confirmed
  | none => w

/-- The confirmation of `f` backs a leader of term `t`: its lease, which is still valid, or a
barrier under way that may begin one. -/
def Backs (c : Cluster) (w : Backers) (f : NodeId) (t : Int) : Prop :=
  ∃ u p, c.process u = some p ∧ p.node.state.role = .leader ∧ p.node.state.currentTerm = t ∧
    (p.node.hasValidReadLease c.now = true ∧ f ∈ w u ∨
      ∃ i b, c.barrier u i = some b ∧ b.readTerm = t ∧ Vouches c u b.firstRpc t t f)

/-- No member whose confirmation backs a leader votes in a later term within `minTimeout` of the
last request it accepted, and no lease begins later than `minTimeout - readLeaseDuration` after its
barrier. -/
structure Timely (c : Cluster) (w : Backers) (a : Action) (c' : Cluster) : Prop where
  votes : ∀ f t time, CastsVote c c' f → t < (c'.disk f).savedState.currentTerm → Backs c w f t →
    c.contact f = some time → time + minTimeout ≤ c.now
  barriers : ∀ v b, c.leaseBegun a = some (v, b) →
    c.now + readLeaseDuration ≤ b.startedAt + minTimeout

/-- The state a timely run reaches, with the backers of the leases. -/
inductive TimelyRun (m : Members) : Cluster → Backers → Prop
  | start : TimelyRun m (Cluster.initial m) fun _ => []
  | step {c c' : Cluster} {w : Backers} {a : Action} (h : TimelyRun m c w)
      (hstep : c.step a = some c') (htimely : Timely c w a c') : TimelyRun m c' (w.after c a)

/-- Member `f` has accepted a request at `since` or later, and while the shortest election timeout
after that lasts it has voted in no term beyond `t`. -/
structure Loyal (c : Cluster) (h : Hist) (since : Nat) (t : Int) (f : NodeId) : Prop where
  contact : ∃ time, c.contact f = some time ∧ since ≤ time
  votes : c.now < since + minTimeout → ∀ b ∈ h.ballots, b.voter = f → b.term ≤ t

section Step

variable {c c' : Cluster} {g g' : Grp} {w : Backers} {a : Action} {v : NodeId} {p : Process}

theorem Moved.now_le (hmv : Moved c g a c' g') : c.now ≤ c'.now := by
  cases hmv with
  | elapse ms => exact Nat.le_add_right _ _
  | start | run | fall => exact le_rfl

theorem Moved.contact (hmv : Moved c g a c' g') (f : NodeId) :
    c'.contact f = c.contact f ∨ c'.contact f = some c.now := by
  cases hmv with
  | elapse | start | fall => exact Or.inl rfl
  | @run v op p t _ _ hp ht hpr =>
    change (if Turn.accepted t then Function.update c.contact v (some c.now) else c.contact) f = _ ∨
      (if Turn.accepted t then Function.update c.contact v (some c.now) else c.contact) f = _
    split
    · by_cases hf : f = v
      · subst hf
        exact Or.inr (Function.update_self _ _ _)
      · exact Or.inl (Function.update_of_ne hf _ _)
    · exact Or.inl rfl

/-- **A new ballot is on its voter's disk.** -/
theorem Moved.castsVote (hr : Refines c g) (hmv : Moved c g a c' g')
    {b : Ballot NodeId LogEntry Int} (hb : b ∈ g'.history.ballots) (hnew : b ∉ g.history.ballots) :
    CastsVote c c' b.voter := by
  have hr' := hmv.refines hr
  have hd := hr.onDisk b.voter
  have hd' := hr'.onDisk b.voter
  have hterm : b.term = (g'.peer b.voter).term := (hmv.casts b hb).resolve_left hnew
  have hvote := ((hr'.sound.peer b.voter).ballots b hb rfl).2 hterm
  constructor
  · rw [hd'.vote, hvote]
    exact Option.some_ne_none _
  · rintro ⟨hsame, hsame'⟩
    rw [hd'.term, hd.term] at hsame
    rw [hd'.vote, hd.vote, hvote] at hsame'
    -- with the same record the voter had cast this ballot before
    obtain ⟨b', hb', hv, -, ht⟩ := (hr.sound.peer b.voter).vote b.candidate hsame'.symm
    have heq := hr'.sound.history.ballot_unique b hb b' ((hmv.longer hr).ballots hb') hv.symm
      (by rw [hterm, hsame, ht])
    exact hnew (heq ▸ hb')

/-- **A loyal backer stays loyal** in a timely step. -/
theorem Loyal.step {since : Nat} {t : Int} {f : NodeId} (hr : Refines c g)
    (hmv : Moved c g a c' g') (htimely : Timely c w a c') (hsince : since ≤ c.now)
    (hback : Backs c w f t) (h : Loyal c g.history since t f) :
    Loyal c' g'.history since t f := by
  obtain ⟨time, htime, hle⟩ := h.contact
  refine ⟨?_, fun hnow b hb hv => ?_⟩
  · rcases hmv.contact f with hsame | hnew
    · exact ⟨time, hsame.trans htime, hle⟩
    · exact ⟨c.now, hnew, hsince⟩
  · have hnow' := hmv.now_le
    by_cases hold : b ∈ g.history.ballots
    · exact h.votes (by omega) b hold hv
    · by_contra hlater
      have hcast := hmv.castsVote hr hb hold
      have hterm : (c'.disk b.voter).savedState.currentTerm = b.term :=
        ((hmv.refines hr).onDisk b.voter).term.trans ((hmv.casts b hb).resolve_left hold).symm
      rw [hv] at hcast hterm
      have := htimely.votes f t time hcast (by omega) hback htime
      omega

/-! ## 3. Barriers in time -/

/-- While the member of a barrier leads in the term that it reads in, whoever has accepted one of
its requests is loyal since the barrier began. -/
structure Barrier.Timed (c : Cluster) (g : Grp) (v : NodeId) (b : Barrier) : Prop where
  started : b.startedAt ≤ c.now
  loyal : c.LeaderOf v b.readTerm → ∀ f, Vouches c v b.firstRpc b.readTerm b.readTerm f →
    Loyal c g.history b.startedAt b.readTerm f

/-- What holds of a barrier that is under way. -/
def Call.Timed (c : Cluster) (g : Grp) (v : NodeId) : Call → Prop
  | .confirming _ _ b => b.Timed c g v
  | _ => True

theorem Barrier.Timed.step {i : Nat} {b : Barrier} (hr : Refines c g) (hmv : Moved c g a c' g')
    (htimely : Timely c w a c') (hb : c.barrier v i = some b) (hasked : b.Asked c g v p)
    (h : b.Timed c g v) : b.Timed c' g' v := by
  obtain ⟨hrpcs, -, hnew⟩ := hmv.network
  refine ⟨h.started.trans hmv.now_le, fun hlead f hvouch => ?_⟩
  obtain ⟨q, key, acked, hq, -⟩ := Cluster.barrier_eq_some.mp hb
  have hled : c.LeaderOf v b.readTerm := hmv.leaderOf hr hq hasked.elected hasked.reached hlead
  obtain ⟨x, hx, hfirst, haccepted, request, hrpc, hterm, hrange⟩ := hvouch
  rcases hnew x hx with hold | ⟨rpc, hrpc', hpresent, hcontact⟩
  · obtain ⟨rpc, hrpc', -⟩ := hr.answers x hold
    obtain rfl := Option.some.inj (hrpc.symm.trans (getElem?_mono hrpcs hrpc'))
    have hbefore : Vouches c v b.firstRpc b.readTerm b.readTerm f :=
      ⟨x, hold, hfirst, haccepted, request, hrpc', hterm, hrange⟩
    obtain ⟨r, hr', hrole, hrt⟩ := id hled
    exact (h.loyal hled f hbefore).step hr hmv htimely h.started
      ⟨v, r, hr', hrole, hrt, Or.inr ⟨i, b, hb, rfl, hbefore⟩⟩
  · obtain rfl := Option.some.inj (hrpc.symm.trans (getElem?_mono hrpcs hrpc'))
    refine ⟨⟨c.now, hcontact haccepted, h.started⟩, fun _ y hy hv => ?_⟩
    have hle := (((hmv.refines hr).sound.peer f).ballots y hy hv).1
    exact hle.trans (hpresent.symm.le.trans (hterm.le.trans hrange.2))

theorem Call.timed_trivial {call : Call} (h : call.reading = false) : call.Timed c g v := by
  cases call <;> trivial

theorem Moved.timed (hr : Refines c g) (hmv : Moved c g a c' g') (htimely : Timely c w a c')
    (hasked : c.AllCalls (Call.Asked c g)) (h : c.AllCalls fun u _ call => call.Timed c g u) :
    c'.AllCalls fun u _ call => call.Timed c' g' u := by
  have hboth : c.AllCalls fun u p call => call.Timed c g u → call.Timed c' g' u := by
    intro u q i call hq hcall htimed
    cases call with
    | confirming key acked b =>
      exact htimed.step hr hmv htimely (Cluster.barrier_eq_some.mpr ⟨q, key, acked, hq, hcall⟩)
        (hasked u q i _ hq hcall)
    | _ => trivial
  have hkept : c.AllCalls fun u _ call => call.Timed c' g' u :=
    fun u q i call hq hcall => hboth u q i call hq hcall (h u q i call hq hcall)
  refine hmv.allCalls hkept (fun _ _ _ _ hcall => hcall) ?_
  rintro u q op t hq ht rfl hsh call
  refine ⟨id, fun hbegun => ?_, fun old hold hnext => ?_⟩
  · cases hbegun <;> trivial
  · cases hnext with
    | shift _ _ hreading => exact Call.timed_trivial hreading
    | answer => trivial
    | barrier hrun =>
      refine ⟨hmv.now_le, fun _ f ⟨x, hx, hfirst, _⟩ => ?_⟩
      -- every answer so far, and any of this step, is to a request sent before
      rcases hmv.network.2.2 x hx with hold | ⟨rpc, hrpc, -⟩
      · obtain ⟨rpc, hrpc, -⟩ := hr.answers x hold
        exact absurd hfirst (Nat.not_le.mpr (List.getElem?_eq_some_iff.mp hrpc).1)
      · exact absurd hfirst (Nat.not_le.mpr (List.getElem?_eq_some_iff.mp hrpc).1)
    | poll hb => cases hb <;> exact ⟨hold.started, hold.loyal⟩
    | confirm hrun => trivial

/-! ## 4. Leases in time -/

/-- The lease that `v` was given for term `t` at `time`: while `v` leads and the lease lasts, it
rests on a quorum that was loyal from shortly before it began. -/
structure LeaseRests (c : Cluster) (g : Grp) (w : Backers) (v : NodeId) (t : Int) (time : Nat) :
    Prop where
  begun : time ≤ c.now
  elected : ∃ e ∈ g.history.elections, e.term = t ∧ e.leader = v
  reached : t ≤ (g.peer v).term
  rests : c.LeaderOf v t → c.now < time + readLeaseDuration → ∃ since,
    time + readLeaseDuration ≤ since + minTimeout ∧ since ≤ c.now ∧
      c.members.quorums.isQuorum {u | u ∈ v :: w v} ∧ ∀ f ∈ w v, Loyal c g.history since t f

/-- The lease on record rests on its backers. -/
def Rested (c : Cluster) (g : Grp) (w : Backers) (v : NodeId) (n : RaftNode) : Prop :=
  ∀ t time, n.lastReadQuorumTerm = some t → n.lastReadQuorumTime = some time →
    LeaseRests c g w v t time

theorem Rested.step {w' : Backers} {n' : RaftNode} (hr : Refines c g) (hmv : Moved c g a c' g')
    (htimely : Timely c w a c') (hp : c.process v = some p) (hsame : SameLease p.node n')
    (hw : w' v = w v) (h : Rested c g w v p.node) : Rested c' g' w' v n' := by
  intro t time ht htime
  rw [hsame.term] at ht
  rw [hsame.time] at htime
  have hl := h t time ht htime
  obtain ⟨e, he, hrest⟩ := hl.elected
  refine ⟨hl.begun.trans hmv.now_le, ⟨e, (hmv.longer hr).elections.subset he, hrest⟩,
    hl.reached.trans (hmv.term_le v), fun hlead hlasts => ?_⟩
  have hled := hmv.leaderOf hr hp hl.elected hl.reached hlead
  have hlasted : c.now < time + readLeaseDuration := hmv.now_le.trans_lt hlasts
  obtain ⟨since, hle, hsince, hquorum, hloyal⟩ := hl.rests hled hlasted
  rw [hw, hmv.members]
  refine ⟨since, hle, hsince.trans hmv.now_le, hquorum, fun f hf => ?_⟩
  obtain ⟨q, hq, hrole, hterm⟩ := id hled
  obtain rfl : p = q := Option.some.inj (hp.symm.trans hq)
  have hvalid : p.node.hasValidReadLease c.now = true :=
    RaftNode.hasValidReadLease_iff.mpr
      ⟨hrole, by rw [ht, hterm], time, htime, hl.begun, hlasted⟩
  exact (hloyal f hf).step hr hmv htimely hsince
    ⟨v, p, hp, hrole, hterm, Or.inl ⟨hvalid, hf⟩⟩

/-- **What holds in every state of a timely run.** -/
structure InTime (c : Cluster) (g : Grp) (w : Backers) : Prop where
  vouched : AllVouched c g
  reading : c.AllCalls (Call.Reading c g)
  asked : c.AllCalls (Call.Asked c g)
  timed : c.AllCalls fun u _ call => call.Timed c g u
  leases : ∀ v p, c.process v = some p → Rested c g w v p.node

theorem Process.confirmFinish_node {i now : Nat} {key : String} {acked : List Acknowledgement}
    {b : Barrier} {t : Turn} (ht : p.confirmFinish i now = some t)
    (hcall : p.calls i = some (.confirming key acked b)) :
    t.process.node = (RaftNode.confirmFinish b.readTerm b.confirmed now p.node).node := by
  unfold Process.confirmFinish at ht
  rw [hcall] at ht
  simp only at ht
  split at ht <;> cases ht <;> rfl

/-- **A lease begins** on the quorum of its barrier. -/
theorem InTime.begins {i : Nat} {key : String} {acked : List Acknowledgement} {b : Barrier}
    {w' : Backers} (hr : Refines c g) (hmv : Moved c g a c' g') (htimely : Timely c w a c')
    (h : InTime c g w) (hp : c.process v = some p)
    (hcall : p.calls i = some (.confirming key acked b))
    (hrest : p.node.HasReadQuorum b.readTerm b.confirmed)
    (hbegin : c.now + readLeaseDuration ≤ b.startedAt + minTimeout) (hw : w' v = b.confirmed) :
    Rested c' g' w' v (RaftNode.confirmFinish b.readTerm b.confirmed c.now p.node).node := by
  obtain ⟨hcounts, -⟩ := h.reading v p i _ hp hcall
  have hasked : b.Asked c g v p := h.asked v p i _ hp hcall
  have htimed : b.Timed c g v := h.timed v p i _ hp hcall
  obtain ⟨hlt, hltime⟩ := RaftNode.confirmFinish_begins hrest c.now
  obtain ⟨hrole, hterm, hsize⟩ := hrest
  have hbarrier : c.barrier v i = some b :=
    Cluster.barrier_eq_some.mpr ⟨p, key, acked, hp, hcall⟩
  have hm := (hr.up v p hp).mirrors
  rw [(hr.up v p hp).members] at hsize
  intro t time ht htime
  rw [hlt] at ht
  rw [hltime] at htime
  cases ht
  cases htime
  obtain ⟨e, he, hrest⟩ := hasked.elected
  refine ⟨hmv.now_le, ⟨e, (hmv.longer hr).elections.subset he, hrest⟩,
    hasked.reached.trans (hmv.term_le v), fun _ _ => ?_⟩
  rw [hw, hmv.members]
  refine ⟨b.startedAt, hbegin, htimed.started.trans hmv.now_le, hcounts.isQuorum hr hp hsize,
    fun f hf => ?_⟩
  have hvouch := hasked.confirmed f hf
  rw [hm.term, hterm] at hvouch
  exact (htimed.loyal ⟨p, hp, hrole, hterm⟩ f hvouch).step hr hmv htimely htimed.started
    ⟨v, p, hp, hrole, hterm, Or.inr ⟨i, b, hbarrier, rfl, hvouch⟩⟩

theorem Backers.after_of_begun {b : Barrier} (h : c.leaseBegun a = some (v, b)) :
    w.after c a v = b.confirmed := by
  rw [Backers.after, h]
  exact Function.update_self _ _ _

theorem Backers.after_of_not_begun (h : ∀ b, c.leaseBegun a ≠ some (v, b)) :
    w.after c a v = w v := by
  rcases hbegun : c.leaseBegun a with _ | ⟨u, b⟩
  · rw [Backers.after, hbegun]
  · rw [Backers.after, hbegun]
    have hne : v ≠ u := fun heq => h b (heq ▸ hbegun)
    exact Function.update_of_ne hne _ _

theorem Moved.inTime (hr : Refines c g) (hmv : Moved c g a c' g') (htimely : Timely c w a c')
    (h : InTime c g w) : InTime c' g' (w.after c a) := by
  refine ⟨hmv.vouched hr h.vouched, hmv.reading hr h.vouched h.reading,
    hmv.asked hr h.reading h.asked, hmv.timed hr htimely h.asked h.timed, fun u q hq => ?_⟩
  by_cases hbegun : ∃ b, c.leaseBegun a = some (u, b)
  · obtain ⟨b, hbegun⟩ := hbegun
    have hw : w.after c a u = b.confirmed := Backers.after_of_begun hbegun
    have hbegin := htimely.barriers u b hbegun
    obtain ⟨i, p, key, acked, rfl, hp, hcall, hquorum⟩ := Cluster.leaseBegun_eq_some.mp hbegun
    obtain ⟨p', t, -, -, hp', ht, -, rfl, -⟩ := id hmv.run_inv
    obtain rfl : p = p' := Option.some.inj (hp.symm.trans hp')
    rw [Cluster.finish_process_self] at hq
    cases hq
    rw [Process.confirmFinish_node ht hcall]
    exact h.begins hr hmv htimely hp hcall hquorum hbegin hw
  · have hw : w.after c a u = w u := Backers.after_of_not_begun (not_exists.mp hbegun)
    rcases hmv.process hq with hp | ⟨n, rfl, hnone⟩ | ⟨p, op, t, rfl, hp, ht, hc', rfl⟩
    · exact (h.leases u q hp).step hr hmv htimely hp (.refl _) hw
    · intro t time _ htime
      rw [hnone] at htime
      cases htime
    · rcases (turn_stretch ht).lease with hsame | ⟨i, key, acked, b, rfl, hcall, hquorum⟩
      · exact (h.leases u p hp).step hr hmv htimely hp hsame hw
      · -- with a quorum the lease would have begun
        exact absurd ⟨b, Cluster.leaseBegun_eq_some.mpr
          ⟨i, p, key, acked, rfl, hp, hcall, hquorum⟩⟩ hbegun

end Step

/-- **A timely run** keeps what holds in time. -/
theorem TimelyRun.inTime {m : Members} {c : Cluster} {w : Backers} (hrun : TimelyRun m c w) :
    ∃ g, Refines c g ∧ InTime c g w := by
  induction hrun with
  | start =>
    exact ⟨_, initial_refines m, ⟨(fun _ hx => nomatch hx), (fun _ _ _ _ hp => nomatch hp),
      (fun _ _ _ _ hp => nomatch hp)⟩, (fun _ _ _ _ hp => nomatch hp),
      (fun _ _ _ _ hp => nomatch hp), (fun _ _ _ _ hp => nomatch hp),
      (fun _ _ hp => nomatch hp)⟩
  | step _ hstep htimely ih =>
    obtain ⟨g, hr, hin⟩ := ih
    obtain ⟨g', hmv⟩ := hr.step hstep
    exact ⟨g', hmv.refines hr, hmv.inTime hr htimely hin⟩

theorem TimelyRun.reachable {m : Members} {c : Cluster} {w : Backers} (hrun : TimelyRun m c w) :
    Reachable m c := by
  induction hrun with
  | start => exact .refl
  | @step c c' w a _ hstep _ ih => exact ih.tail ⟨a, hstep⟩

/-- **A valid lease excludes every later leader** in a timely run: while the leader's lease is valid
nobody has been elected in a later term, and nobody has acknowledged a write in one. -/
theorem lease_excludes {m : Members} {c : Cluster} {w : Backers} (hrun : TimelyRun m c w)
    {v : NodeId} {p : Process} (hp : c.process v = some p)
    (hlease : p.node.hasValidReadLease c.now = true) :
    (∀ l ∈ c.leaders, l.1 ≤ p.node.state.currentTerm) ∧
      ∀ a ∈ c.acknowledged, a.term ≤ p.node.state.currentTerm := by
  obtain ⟨g, hr, hin⟩ := hrun.inTime
  obtain ⟨hrole, hterm, time, htime, hle, hlt⟩ := RaftNode.hasValidReadLease_iff.mp hlease
  obtain ⟨since, hbegin, -, hquorum, hloyal⟩ :=
    (hin.leases v p hp _ time hterm htime).rests ⟨p, hp, hrole, rfl⟩ hlt
  have hm := (hr.up v p hp).mirrors
  have helected : ∀ e ∈ g.history.elections, e.term ≤ p.node.state.currentTerm := by
    intro e he
    obtain ⟨es, hes⟩ := suffix_of_mem he
    obtain ⟨he', hvotes⟩ := hr.sound.history.election_quorum e es hes
    obtain ⟨u, hu, hue⟩ := c.members.quorums.meet hquorum he'
    rcases List.mem_cons.mp hu with rfl | hu
    · -- the leader itself voted in that election
      rw [← hm.term]
      exact ((hr.sound.peer u).voter_term hr.sound.history he hue).1
    · obtain ⟨b, hb, hv, -, hbt, -⟩ := hvotes u hue
      rw [← hbt]
      exact (hloyal u hu).votes (by omega) b hb hv
  refine ⟨fun l hl => ?_, fun x hx => ?_⟩
  · obtain ⟨e, he, het, -⟩ := hr.leaders l hl
    exact het ▸ helected e he
  · obtain ⟨e, he, het, -⟩ := (hin.vouched.given x hx).elected
    exact het ▸ helected e he

/-! ## 5. A lease in time, and one that is overtaken -/

namespace Cluster

/-- The member whose disk an action may change. -/
def Action.actor : Action → Option NodeId
  | .elapse _ => none
  | .start v _ => some v
  | .startCrash v _ _ => some v
  | .run v _ => some v
  | .crash v _ _ => some v

theorem step_disk_of_ne {c c' : Cluster} {a : Action} {u : NodeId} (hs : c.step a = some c')
    (hu : Action.actor a ≠ some u) : c'.disk u = c.disk u := by
  cases a with
  | elapse ms =>
    cases hs
    rfl
  | start v timeout =>
    have hne : u ≠ v := fun h => hu (congrArg some h.symm)
    simp only [step] at hs
    split at hs
    · cases hs
    split at hs
    · split at hs <;> cases hs <;> exact down_disk_of_ne _ _ hne
    · cases hs
  | startCrash v timeout effects =>
    have hne : u ≠ v := fun h => hu (congrArg some h.symm)
    simp only [step] at hs
    split at hs <;> cases hs
    exact down_disk_of_ne _ _ hne
  | run v op =>
    have hne : u ≠ v := fun h => hu (congrArg some h.symm)
    simp only [step] at hs
    split at hs
    · cases hs
    · obtain ⟨t, -, rfl⟩ := Option.map_eq_some_iff.mp hs
      exact finish_disk_of_ne _ _ _ hne
  | crash v op effects =>
    have hne : u ≠ v := fun h => hu (congrArg some h.symm)
    simp only [step] at hs
    split at hs
    · cases hs
    · obtain ⟨t, -, rfl⟩ := Option.map_eq_some_iff.mp hs
      exact down_disk_of_ne _ _ hne

end Cluster

instance (c c' : Cluster) (v : NodeId) : Decidable (CastsVote c c' v) :=
  inferInstanceAs (Decidable (_ ∧ _))

/-- No member that acts votes within `minTimeout` of the last request it accepted, whether its
confirmation backs a leader or not, and a lease begins in time. -/
def onTime (c : Cluster) (a : Action) (c' : Cluster) : Bool :=
  (Action.actor a).all (fun v => !decide (CastsVote c c' v) ||
    (c.contact v).all fun time => decide (time + minTimeout ≤ c.now)) &&
  (c.leaseBegun a).all fun (_, b) => decide (c.now + readLeaseDuration ≤ b.startedAt + minTimeout)

theorem Timely.of_onTime {c c' : Cluster} {w : Backers} {a : Action} (hs : c.step a = some c')
    (h : onTime c a c' = true) : Timely c w a c' := by
  obtain ⟨hvotes, hbarriers⟩ := Bool.and_eq_true_iff.mp h
  constructor
  · intro f t time hcast _ _ hcontact
    by_cases hf : Action.actor a = some f
    · rw [hf, Option.all_some, hcontact, decide_eq_true hcast] at hvotes
      simpa using hvotes
    · -- the disk of another member is the same
      rw [CastsVote, step_disk_of_ne hs hf] at hcast
      exact absurd ⟨rfl, rfl⟩ hcast.2
  · intro v b hbegun
    simpa only [hbegun, Option.all_some, decide_eq_true_eq] using hbarriers

def timelyRuns (c : Cluster) : List Action → Option Cluster
  | [] => some c
  | a :: as => (c.step a).bind fun c' => if onTime c a c' then timelyRuns c' as else none

theorem TimelyRun.of_runs {m : Members} : ∀ {as : List Action} {c c' : Cluster} {w : Backers},
    TimelyRun m c w → timelyRuns c as = some c' → ∃ w', TimelyRun m c' w'
  | [], c, c', w, hrun, h => by
    cases h
    exact ⟨w, hrun⟩
  | a :: as, c, c', w, hrun, h => by
    obtain ⟨c₁, hstep, hrest⟩ := Option.bind_eq_some_iff.mp h
    split at hrest
    · rename_i htime
      exact TimelyRun.of_runs (hrun.step hstep (.of_onTime hstep htime)) hrest
    · cases hrest

/-- `a` and `c` stand for election, `a` is elected by `b`, and reads with the confirmation of `b`.
-/
def leasedRead : List Action := [
  .start "a" 1500, .start "b" 3000, .start "c" 1500,
  .elapse 1500,
  .run "a" (.tick 1500),
  .run "b" (.deliver 0 3000),
  .run "a" (.voteAnswer 0),
  .run "c" (.tick 1500),
  .elapse 1400,
  .run "a" (.linearizableGet "x"),
  .run "a" (.confirmStart 0),
  .run "a" (.confirmPoll 0 "b"),
  .run "a" (.workerBuild "b"),
  .run "b" (.deliver 4 3000),
  .run "a" (.workerAnswer "b" 1),
  .run "a" (.confirmPoll 0 "b"),
  .run "a" (.confirmFinish 0)]

theorem leasedRead_timely :
    (timelyRuns (Cluster.initial threeMembers) leasedRead).isSome = true := by decide +kernel

def afterLeasedRead : Cluster :=
  (timelyRuns (Cluster.initial threeMembers) leasedRead).get leasedRead_timely

theorem afterLeasedRead_timely : ∃ w, TimelyRun threeMembers afterLeasedRead w :=
  TimelyRun.of_runs .start (Option.some_get leasedRead_timely).symm

/-- `v` has a valid lease. -/
def leaseOf (c : Cluster) (v : NodeId) : Option (Int × Bool) :=
  (c.process v).map fun p => (p.node.state.currentTerm, p.node.hasValidReadLease c.now)

theorem leaseOf_eq_some {c : Cluster} {v : NodeId} {t : Int} (h : leaseOf c v = some (t, true)) :
    ∃ p, c.process v = some p ∧ p.node.state.currentTerm = t ∧
      p.node.hasValidReadLease c.now = true := by
  obtain ⟨p, hp, heq⟩ := Option.map_eq_some_iff.mp h
  obtain ⟨ht, hlease⟩ := Prod.mk.inj heq
  exact ⟨p, hp, ht, hlease⟩

/-- The leader of term 1 has a valid lease, and no later leader beside it. -/
theorem lease_excludes_leasedRead : ∃ p, afterLeasedRead.process "a" = some p ∧
    p.node.hasValidReadLease afterLeasedRead.now = true ∧
    ∀ l ∈ afterLeasedRead.leaders, l.1 ≤ p.node.state.currentTerm := by
  obtain ⟨p, hp, -, hlease⟩ := leaseOf_eq_some
    (show leaseOf afterLeasedRead "a" = some (1, true) by decide +kernel)
  obtain ⟨w, hrun⟩ := afterLeasedRead_timely
  exact ⟨p, hp, hlease, (lease_excludes hrun hp hlease).1⟩

/-- `c` has heard nothing and stands for election again; `b` votes for it at once. -/
def overtaking : List Action := [
  .elapse 100,
  .run "c" (.tick 3000),
  .run "b" (.deliver 6 3000),
  .run "c" (.voteAnswer 2)]

theorem overtaking_runs : (afterLeasedRead.runs overtaking).isSome = true := by decide +kernel

/-- **A lease is overtaken**: the leader of term 1 has a valid lease, and term 2 has a leader. -/
theorem lease_overtaken : ∃ c p, Reachable threeMembers c ∧ c.process "a" = some p ∧
    p.node.hasValidReadLease c.now = true ∧ ∃ l ∈ c.leaders, p.node.state.currentTerm < l.1 := by
  have hlead : ((afterLeasedRead.runs overtaking).get overtaking_runs).leaders =
      [(1, "a"), (2, "c")] := by decide +kernel
  obtain ⟨p, hp, hterm, hlease⟩ := leaseOf_eq_some
    (show leaseOf ((afterLeasedRead.runs overtaking).get overtaking_runs) "a" = some (1, true) by
      decide +kernel)
  obtain ⟨w, hrun⟩ := afterLeasedRead_timely
  refine ⟨_, p, hrun.reachable.trans (runs_leads (Option.some_get overtaking_runs).symm), hp,
    hlease, (2, "c"), ?_, ?_⟩
  · rw [hlead]
    exact List.mem_cons_of_mem _ (List.mem_singleton_self _)
  · rw [hterm]
    decide

end PyRaftKv
