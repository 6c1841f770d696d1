/-
# Whom a member takes for the leader

A node keeps a `leader_id`, and the API hands it to clients that asked the wrong node.  It comes
from the requests of leaders, so it is as good as these are: `Attributed` says of every request of
a leader in the network, and of every `leader_id` in memory, that the member it names was leader in
the term at hand.  No two members are, so what two nodes say of one term agrees.

* `leader_named_once` -- requests and nodes of one term name one leader, and it leads or led.
* `in_flight_honest` -- what a leader's request says is committed is committed.
-/
import PyRaftKv.Guarantees.Agreement
import PyRaftKv.Refinement.Inversion
import PyRaftKv.Refinement.Locking

open Consensus

namespace PyRaftKv

open Cluster

/-! ## 1. What a stretch does to `leader_id` -/

/-- The node names nobody, or itself as the leader it is, or a leader it `heard` of in its term, or
whom it named before. -/
structure Renames (heard : Int → NodeId → Prop) (n n' : RaftNode) : Prop where
  id : n'.state.nodeId = n.state.nodeId
  named : ∀ l, n'.state.leaderId = some l →
    heard n'.state.currentTerm l ∨ n'.state.role = .leader ∧ l = n'.state.nodeId ∨
      n.state.leaderId = some l ∧ n'.state.currentTerm = n.state.currentTerm ∧
        n'.state.role = n.state.role

section Renames

variable {heard : Int → NodeId → Prop} {n n' n'' : RaftNode}

/-- The state is the same but for the commit index and what is applied. -/
theorem Renames.of_eq (hid : n'.state.nodeId = n.state.nodeId)
    (hl : n'.state.leaderId = n.state.leaderId) (ht : n'.state.currentTerm = n.state.currentTerm)
    (hr : n'.state.role = n.state.role) : Renames heard n n' :=
  ⟨hid, fun _ h => Or.inr (Or.inr ⟨hl ▸ h, ht, hr⟩)⟩

theorem Renames.refl (n : RaftNode) : Renames heard n n := .of_eq rfl rfl rfl rfl

theorem Renames.trans (h : Renames heard n n') (h' : Renames heard n' n'') :
    Renames heard n n'' := by
  refine ⟨h'.id.trans h.id, fun l hl => ?_⟩
  rcases h'.named l hl with hheard | hself | ⟨hl', ht', hr'⟩
  · exact Or.inl hheard
  · exact Or.inr (Or.inl hself)
  · rcases h.named l hl' with hheard | ⟨hlead, hself⟩ | ⟨hl, ht, hr⟩
    · exact Or.inl (ht' ▸ hheard)
    · exact Or.inr (Or.inl ⟨hr'.trans hlead, hself.trans h'.id.symm⟩)
    · exact Or.inr (Or.inr ⟨hl, ht'.trans ht, hr'.trans hr⟩)

instance : Std.Refl (Renames heard) := ⟨.refl⟩
instance : IsTrans RaftNode (Renames heard) := ⟨fun _ _ _ => .trans⟩

/-- A node that names nobody. -/
theorem Renames.nobody (hid : n'.state.nodeId = n.state.nodeId) (hl : n'.state.leaderId = none) :
    Renames heard n n' := ⟨hid, fun _ h => by rw [hl] at h; cases h⟩

theorem Renames.follow {s : RaftState} {term : Int} {leaderId : Option NodeId}
    (hs : s = n.state.follow term leaderId) (hn : n'.state = s)
    (hheard : ∀ l, leaderId = some l → heard term l) : Renames heard n n' := by
  subst hs
  rw [RaftState.follow] at hn
  refine ⟨by rw [hn], fun l hl => Or.inl ?_⟩
  rw [hn] at hl ⊢
  exact hheard l hl

end Renames

/-- A stretch that names nobody new, wherever it starts. -/
abbrev NodeM.Naming {α : Type} (heard : Int → NodeId → Prop) (m : NodeM α) : Prop :=
  Keeping (Renames heard) m

/-- Applying entries changes what is applied only. -/
theorem applyEntries_names (log : RaftLog) : ∀ (k : Nat) (s : RaftState) (store : KVStore),
    (applyEntries log k s store).2.1.nodeId = s.nodeId ∧
      (applyEntries log k s store).2.1.leaderId = s.leaderId
  | 0, s, store => ⟨rfl, rfl⟩
  | k + 1, s, store => by
    unfold applyEntries
    simp only
    split
    · exact ⟨rfl, rfl⟩
    · split
      · exact ⟨rfl, rfl⟩
      · exact applyEntries_names log k _ _

theorem updateFollowerCommit_names (s : RaftState) (log : RaftLog) (store : KVStore)
    (leaderCommit : Int) :
    (updateFollowerCommit s log store leaderCommit).2.1.nodeId = s.nodeId ∧
      (updateFollowerCommit s log store leaderCommit).2.1.leaderId = s.leaderId := by
  unfold updateFollowerCommit
  split
  · exact ⟨rfl, rfl⟩
  · exact applyEntries_names log _ _ store

namespace RaftNode

open NodeM (Keeping Naming)

variable {heard : Int → NodeId → Prop}

theorem applyCommitted_names : Naming heard applyCommitted := by
  intro n
  obtain ⟨hid, hl⟩ := applyEntries_names n.log (n.state.commitIndex - n.state.lastApplied).toNat
    n.state n.store
  obtain ⟨hrole, hterm⟩ := applyEntries_role n.log (n.state.commitIndex - n.state.lastApplied).toNat
    n.state n.store
  exact .of_eq hid hl hterm hrole

theorem persistState_names : Naming heard persistState := .bind .get fun _ => .persist _

theorem persistTerm_names (previousTerm : Int) : Naming heard (persistTerm previousTerm) :=
  .bind .get fun _ => .ite persistState_names (.pure ())

theorem becomeFollower_names (term : Int) (leaderId : Option NodeId)
    (hheard : ∀ l, leaderId = some l → heard term l) :
    Naming heard (becomeFollower term leaderId) := by
  intro n
  unfold becomeFollower RaftState.becomeFollower
  simp only [NodeM.bind_run, NodeM.get_run, NodeM.andThen_ok, NodeM.behind_nil]
  split
  · exact .refl n
  · exact .follow rfl rfl hheard

/-- A change of the node that leaves its state alone. -/
theorem modify_names {f : RaftNode → RaftNode} (hf : ∀ n, (f n).state = n.state) :
    Naming heard (NodeM.modify f) :=
  .modify fun n => .of_eq (by rw [hf]) (by rw [hf]) (by rw [hf]) (by rw [hf])

theorem dropReplication_names : Naming heard (NodeM.modify dropReplication) := by
  refine modify_names fun n => ?_
  obtain ⟨replication, heq⟩ := dropReplication_only n
  rw [heq]

theorem initializeLeaderReplication_names : Naming heard initializeLeaderReplication := by
  refine .bind .get fun n => .ite (modify_names fun _ => rfl) ?_
  exact .ite (.bind (.lift _) fun _ => modify_names fun _ => rfl) (.pure ())

theorem createSnapshot_names : Naming heard createSnapshot := by
  refine .bind .get fun n => .ite (.pure _) ?_
  split
  · exact .raise _
  · refine .bind (.lift _) fun _ => .bind (.persist _) fun _ => .bind (.lift _) fun _ => ?_
    refine .bind (.lift _) fun _ => .bind (.persist _) fun _ => .bind persistState_names fun _ => ?_
    exact .bind (modify_names fun _ => rfl) fun _ => .pure _

/-- A vote takes over a later term and names nobody for it. -/
theorem handleRequestVote_state {s s' : RaftState} {request : RequestVoteRequest}
    {lastIndex lastTerm : Int} {response : RequestVoteResponse}
    (h : PyRaftKv.handleRequestVote s request lastIndex lastTerm = .ok (response, s')) :
    s'.nodeId = s.nodeId ∧ (s'.leaderId = none ∨ s'.leaderId = s.leaderId ∧
      s'.currentTerm = s.currentTerm ∧ s'.role = s.role) := by
  unfold PyRaftKv.handleRequestVote at h
  split at h
  · cases h
    exact ⟨rfl, Or.inr ⟨rfl, rfl, rfl⟩⟩
  split at h
  · rename_i hold hnew
    rw [RaftState.becomeFollower_ok none hnew.le] at h
    simp only [bind, Except.bind, pure, Except.pure] at h
    split at h <;> cases h <;> exact ⟨rfl, Or.inl rfl⟩
  · simp only [bind, Except.bind, pure, Except.pure] at h
    split at h <;> cases h <;> exact ⟨rfl, Or.inr ⟨rfl, rfl, rfl⟩⟩

theorem handleRequestVote_names (clock : Clock) (r : RequestVoteRequest) :
    Naming heard (handleRequestVote clock r) := by
  intro n
  unfold handleRequestVote
  simp only [NodeM.bind_run, NodeM.get_run, NodeM.andThen_ok, NodeM.behind_nil]
  rcases hrun : PyRaftKv.handleRequestVote n.state r n.log.lastIndex n.log.lastTerm with
    e | ⟨response, state⟩
  · exact .refl n
  · have hstate : Renames heard n { n with state } := by
      obtain ⟨hid, hnone | ⟨hl, ht, hr⟩⟩ := handleRequestVote_state hrun
      · exact .nobody hid hnone
      · exact .of_eq hid hl ht hr
    rw [NodeM.lift_ok_run, NodeM.andThen_ok, NodeM.behind_nil, NodeM.bind_run, NodeM.modify_run,
      NodeM.andThen_ok, NodeM.behind_nil]
    refine hstate.trans
      (Keeping.bind (R := Renames heard) persistState_names (fun _ => ?_) { n with state })
    have hdrop : Naming heard (do NodeM.modify dropReplication; return response) :=
      .bind dropReplication_names fun _ => .pure _
    exact .ite (.bind (modify_names fun _ => rfl) fun _ => hdrop) hdrop

/-- An AppendEntries that is not too old makes the node name its sender. -/
theorem handleAppendEntries_state (s : RaftState) (log : RaftLog) (r : AppendEntriesRequest)
    (store : KVStore) :
    (PyRaftKv.handleAppendEntries s log r store).2.1 = s ∨
      (PyRaftKv.handleAppendEntries s log r store).2.1.nodeId = s.nodeId ∧
        (PyRaftKv.handleAppendEntries s log r store).2.1.leaderId = some r.leaderId ∧
          (PyRaftKv.handleAppendEntries s log r store).2.1.currentTerm = r.term := by
  unfold PyRaftKv.handleAppendEntries
  split
  · exact Or.inl rfl
  rename_i hold
  rw [RaftState.becomeFollower_ok _ (not_lt.mp hold)]
  simp only
  split
  · exact Or.inr ⟨rfl, rfl, rfl⟩
  split
  · exact Or.inr ⟨rfl, rfl, rfl⟩
  split
  · exact Or.inr ⟨rfl, rfl, rfl⟩
  · rename_i log' _
    have hnames := updateFollowerCommit_names (s.follow r.term (some r.leaderId)) log' store
      r.leaderCommit
    have hterm := (updateFollowerCommit_role (s.follow r.term (some r.leaderId)) log' store
      r.leaderCommit).2
    split
    · rename_i hrun
      rw [hrun] at hnames hterm
      exact Or.inr ⟨hnames.1, hnames.2, hterm⟩
    · rename_i hrun
      rw [hrun] at hnames hterm
      exact Or.inr ⟨hnames.1, hnames.2, hterm⟩

theorem handleAppendEntries_names (clock : Clock) (r : AppendEntriesRequest)
    (hheard : heard r.term r.leaderId) : Naming heard (handleAppendEntries clock r) := by
  intro n
  obtain ⟨state, log, store, hrun, hrest⟩ := handleAppendEntries_rests clock r n
  have hstate : (handleAppendEntries clock r n).node.state = state := hrest.state
  have hcases := handleAppendEntries_state n.state n.log r n.store
  rw [hrun] at hcases
  rcases hcases with rfl | ⟨hid, hl, ht⟩
  · exact .of_eq (by rw [hstate]) (by rw [hstate]) (by rw [hstate]) (by rw [hstate])
  · refine ⟨by rw [hstate]; exact hid, fun l hname => Or.inl ?_⟩
    rw [hstate, hl] at hname
    rw [hstate, ht, ← Option.some.inj hname]
    exact hheard

theorem handleInstallSnapshot_names (clock : Clock) (r : InstallSnapshotRequest)
    (hheard : heard r.term r.leaderId) : Naming heard (handleInstallSnapshot clock r) := by
  have hrefuse (previousTerm : Int) (a : InstallSnapshotResponse) :
      Naming heard (do persistTerm previousTerm; return a) :=
    .bind (persistTerm_names _) fun _ => .pure _
  have htimer (a : InstallSnapshotResponse) : Naming heard (do
      NodeM.modify fun n => { n with timer := .reset clock.now clock.timeout }
      return a) := .bind (modify_names fun _ => rfl) fun _ => .pure _
  have hfollow : Naming heard (becomeFollower r.term (some r.leaderId)) :=
    becomeFollower_names _ _ fun l hl => Option.some.inj hl ▸ hheard
  refine .bind .get fun n => .ite (.pure _) <| .bind hfollow fun _ => ?_
  refine .bind (modify_names fun _ => rfl) fun _ => .bind .get fun n => ?_
  refine .ite (hrefuse _ _) <| .ite (.bind (persistTerm_names _) fun _ => htimer _) <|
    .ite (hrefuse _ _) ?_
  refine .bind (.lift _) fun _ => .bind (.lift _) fun _ => ?_
  split
  · exact hrefuse _ _
  · refine .ite (hrefuse _ _) <| .bind (.persist _) fun _ => .bind (.persist _) fun _ => ?_
    refine .bind (.modify fun _ => .of_eq rfl rfl rfl rfl) fun _ => ?_
    exact .bind applyCommitted_names fun _ => .bind persistState_names fun _ => htimer _

theorem handleTimeoutNow_names (r : TimeoutNowRequest) (hheard : heard r.term r.leaderId) :
    Naming heard (handleTimeoutNow r) := by
  have hfollow : Naming heard (becomeFollower r.term (some r.leaderId)) :=
    becomeFollower_names _ _ fun l hl => Option.some.inj hl ▸ hheard
  refine .bind .get fun n => .ite (.pure _) (.ite (.bind hfollow fun _ => ?_) ?_)
  all_goals
    refine .bind .get fun _ => .bind (persistTerm_names _) fun _ => ?_
    exact .ite (.bind (modify_names fun _ => rfl) fun _ => .pure _) (.pure _)

theorem tickStart_names (clock : Clock) : Naming heard (tickStart clock) := by
  intro n
  obtain ⟨request, s, timer, election, hrun, hstood⟩ := startElectionIfNeeded_stood n clock
  unfold tickStart
  simp only [NodeM.bind_run, NodeM.get_run, NodeM.andThen_ok, NodeM.behind_nil, hrun,
    NodeM.lift_ok_run, NodeM.modify_run]
  have hlead : Naming heard (if s.role = .leader then (do initializeLeaderReplication; return none)
      else pure request : NodeM (Option RequestVoteRequest)) :=
    .ite (.bind initializeLeaderReplication_names fun _ => .pure _) (.pure _)
  have hrest : Naming heard (do
      if s.currentTerm ≠ n.state.currentTerm ∨ s.votedFor ≠ n.state.votedFor then persistState
      if s.role = .leader then do
        initializeLeaderReplication
        return none
      else return request : NodeM (Option RequestVoteRequest)) :=
    .ite (.bind persistState_names fun _ => hlead) hlead
  have hstate : Renames heard n { n with state := s, timer, election } := by
    cases hstood with
    | early => exact .of_eq rfl rfl rfl rfl
    | candidate => exact .nobody rfl rfl
    | leader => exact ⟨rfl, fun l hl => Or.inr (Or.inl ⟨rfl, (Option.some.inj hl).symm⟩)⟩
  exact hstate.trans (hrest { n with state := s, timer, election })

theorem tickResponse_names (peerId : NodeId) (request : RequestVoteRequest)
    (response : RequestVoteResponse) : Naming heard (tickResponse peerId request response) := by
  intro n
  unfold tickResponse
  simp only [NodeM.bind_run, NodeM.get_run, NodeM.andThen_ok, NodeM.behind_nil, NodeM.ite_run]
  split
  · exact .refl n
  rename_i hrole
  rw [not_or, not_not] at hrole
  obtain ⟨won, election, s, hrun, hrecorded⟩ :=
    recordVote_recorded n.election hrole.1 n.members peerId response
  simp only [hrun, NodeM.lift_ok_run, NodeM.andThen_ok, NodeM.behind_nil, NodeM.bind_run,
    NodeM.modify_run]
  have hrole : Naming heard (if s.role = .leader then initializeLeaderReplication
      else if s.role = .follower then NodeM.modify fun n => { n with replication := none }
      else pure () : NodeM Unit) :=
    .ite initializeLeaderReplication_names (.ite (modify_names fun _ => rfl) (.pure _))
  have hrest : Naming heard (do
      if s.currentTerm ≠ n.state.currentTerm ∨ s.votedFor ≠ n.state.votedFor then
        persistState
      if s.role = .leader then initializeLeaderReplication
      else if s.role = .follower then
        NodeM.modify fun n => { n with replication := none } : NodeM Unit) :=
    .ite (.bind persistState_names fun _ => hrole) hrole
  have hstate : Renames heard n { n with election, state := s } := by
    cases hrecorded with
    | ignored => exact .of_eq rfl rfl rfl rfl
    | newer => exact .nobody rfl rfl
    | counted => exact .of_eq rfl rfl rfl rfl
    | won => exact ⟨rfl, fun l hl => Or.inr (Or.inl ⟨rfl, (Option.some.inj hl).symm⟩)⟩
  exact hstate.trans (hrest { n with election, state := s })

theorem replicateBuild_names (f : NodeId) : Naming heard (replicateBuild f) := by
  refine .bind .get fun n => .ite (.pure _) ?_
  split
  · exact .pure _
  · exact .ite (.ite (.raise _) (.pure _)) (.bind (.lift _) fun _ => .pure _)

/-- Stepping down without a leader in sight. -/
theorem stepDown_names (term : Int) : Naming heard (becomeFollower term) :=
  becomeFollower_names _ _ (by rintro l ⟨⟩)

theorem replicateResponse_names (f : NodeId) (request : ReplicationRequest) (term : Int)
    (success : Bool) : Naming heard (replicateResponse f request term success) := by
  refine .bind .get fun n => ?_
  split
  · exact .pure _
  refine .ite (.pure _) <| .ite (.bind (stepDown_names _) fun _ =>
    .bind persistState_names fun _ => .bind (modify_names fun _ => rfl) fun _ => .pure _) ?_
  split
  · refine .ite (.pure _) ?_
    exact .bind (.lift _) fun _ => .bind (modify_names fun _ => rfl) fun _ => .pure _
  · refine .ite ?_ ?_
    all_goals exact .bind (.lift _) fun _ => .bind (modify_names fun _ => rfl) fun _ => .pure _

theorem replicateLogStart_names : Naming heard replicateLogStart :=
  .bind .get fun _ => .ite (.raise _) <| .bind initializeLeaderReplication_names fun _ =>
    .bind .get fun _ => .ite (.raise _) (.pure _)

theorem roundStart_names : Naming heard roundStart :=
  .bind .get fun _ => .ite (.pure _) <| .bind initializeLeaderReplication_names fun _ =>
    .bind .get fun _ => .pure _

theorem replicateLogFinish_names : Naming heard replicateLogFinish := by
  refine .bind .get fun n => ?_
  split
  · exact .pure _
  · refine .ite (.pure _) <| .bind (.modify fun _ => .of_eq rfl rfl rfl rfl) fun _ => ?_
    exact .ite (.bind persistState_names fun _ => applyCommitted_names) (.pure _)

theorem submitStart_names (commands : List RaftCommand) : Naming heard (submitStart commands) := by
  refine .bind .get fun n => .ite (.pure _) <| .ite (.raise _) <| .ite (.raise _) ?_
  refine .bind (.lift _) fun _ => .bind (.lift _) fun _ => ?_
  refine .bind (modify_names fun _ => rfl) fun _ => .bind (.persist _) fun _ => ?_
  exact .bind initializeLeaderReplication_names fun _ => .pure _

theorem submitResults_names (es : List LogEntry) : Naming heard (submitResults es) :=
  .bind .get fun _ => .ite (.pure _) (.pure _)

theorem getStart_names (key : String) (now : Nat) : Naming heard (getStart key now) :=
  .bind .get fun _ => .ite (.raise _) <| .ite
    (.bind applyCommitted_names fun _ => .bind .get fun _ => .pure _) (.pure _)

theorem confirmStart_names : Naming heard confirmStart := by
  refine .bind .get fun n => .ite (.raise _) <| .bind initializeLeaderReplication_names fun _ => ?_
  refine .bind .get fun _ => ?_
  split
  · exact .raise _
  · exact .pure _

theorem confirmFinish_names (readTerm : Int) (confirmed : List NodeId) (now : Nat) :
    Naming heard (confirmFinish readTerm confirmed now) :=
  .bind .get fun _ => .ite (.raise _) <| .ite (.raise _) <|
    .bind (modify_names fun _ => rfl) fun _ => applyCommitted_names

theorem getFinish_names (key : String) (now : Nat) : Naming heard (getFinish key now) :=
  .bind .get fun _ => .ite (.raise _) (.pure _)

theorem transferStart_names (targetId : Option NodeId) : Naming heard (transferStart targetId) := by
  have hflag : Naming heard (NodeM.modify fun n =>
      { n with leadershipTransferInProgress := true }) := modify_names fun _ => rfl
  refine .bind .get fun n => .ite (.raise _) <| .bind initializeLeaderReplication_names fun _ => ?_
  refine .bind .get fun _ => ?_
  split
  · exact .pure _
  · split
    · exact .ite (.raise _) (.bind hflag fun _ => .pure _)
    · exact .bind hflag fun _ => .pure _

theorem transferSelect_names (targetId : Option NodeId) (term : Int)
    (results : NodeId → Option Bool) : Naming heard (transferSelect targetId term results) := by
  refine .bind .get fun _ => ?_
  split
  · exact .pure _
  · exact .ite (.pure _) (.pure _)

theorem transferResponse_names (term : Int) (response : TimeoutNowResponse) :
    Naming heard (transferResponse term response) := by
  refine .bind .get fun _ => .ite (.pure _) <| .ite ?_ <| .ite (.pure _) ?_
  · exact .bind (stepDown_names _) fun _ => .bind persistState_names fun _ =>
      .bind (modify_names fun _ => rfl) fun _ => .pure _
  · exact .bind (stepDown_names _) fun _ => .bind (modify_names fun _ => rfl) fun _ => .pure _

theorem transferEnd_names : Naming heard transferEnd := modify_names fun _ => rfl

end RaftNode

/-! ## 2. The requests of leaders -/

/-- The term and the `leader_id` of a request that only leaders send. -/
def Request.leader : Request → Option (Int × NodeId)
  | .requestVote _ => none
  | .appendEntries r => some (r.term, r.leaderId)
  | .installSnapshot r => some (r.term, r.leaderId)
  | .timeoutNow r => some (r.term, r.leaderId)

section Sends

variable {c : Cluster} {v : NodeId} {p : Process} {t : Turn}

/-- What a leader sends a follower carries its term and its name. -/
theorem replicateBuild_leader {n : RaftNode} {f : NodeId} {request : ReplicationRequest}
    (h : (RaftNode.replicateBuild f n).result = .ok (some request))
    (hid : n.state.nodeId = n.nodeId) : n.state.role = .leader ∧
      request.toRequest.leader = some (n.state.currentTerm, n.nodeId) := by
  unfold RaftNode.replicateBuild at h
  simp only [NodeM.bind_run, NodeM.get_run, NodeM.andThen_ok, NodeM.behind_nil,
    NodeM.ite_run] at h
  split at h
  · cases h
  rename_i hlead
  refine ⟨not_not.mp hlead, ?_⟩
  rcases hrep : n.replication with _ | r
  · rw [hrep] at h
    cases h
  rw [hrep] at h
  simp only [NodeM.ite_run, NodeM.bind_run] at h
  split at h
  · split at h
    · cases h
    · cases h
      rfl
  · rcases hbuild : r.buildRequest n.state n.log f (some n.state.commitIndex) with e | built
    · rw [hbuild] at h
      cases h
    · rw [hbuild] at h
      cases h
      unfold LeaderReplication.buildRequest at hbuild
      simp only [bind, Except.bind, throw, throwThe, MonadExceptOf.throw, pure, Except.pure]
        at hbuild
      split_ifs at hbuild
      split at hbuild
      · cases hbuild
      · split at hbuild
        · cases hbuild
        · cases hbuild
          simp only [ReplicationRequest.toRequest, Request.leader, hid]

/-- The follower that is told to start an election is told so by the leader of the term. -/
theorem transferSelect_leader {n : RaftNode} {targetId : Option NodeId} {term : Int}
    {results : NodeId → Option Bool} {f : NodeId} {request : TimeoutNowRequest}
    (h : (RaftNode.transferSelect targetId term results n).result = .ok (some (f, request))) :
    n.state.role = .leader ∧ request = ⟨n.state.currentTerm, n.nodeId⟩ := by
  unfold RaftNode.transferSelect at h
  simp only [NodeM.bind_run, NodeM.get_run, NodeM.andThen_ok, NodeM.behind_nil] at h
  rcases hrep : n.replication with _ | r
  · rw [hrep] at h
    cases h
  rw [hrep] at h
  simp only [NodeM.ite_run] at h
  split at h
  · cases h
  rename_i hlead
  rw [not_or, not_not, not_not] at hlead
  obtain ⟨s, -, hs⟩ := Option.map_eq_some_iff.mp (Except.ok.inj h)
  cases hs
  exact ⟨hlead.1, by rw [hlead.2]⟩

variable {m : Members} {d : DataDir} {pe : PeerState} {h : Hist} {op : Op}

/-- **Only a leader sends a leader's request**, in its own name and for the term it leads in. -/
theorem turn_sends (hu : Up m v p.node d pe h) (ht : p.turn c v op = some t) :
    ∀ s ∈ t.sends, ∀ x, s.2.leader = some x →
      p.node.state.role = .leader ∧ x = (p.node.state.currentTerm, v) := by
  intro s hs x hx
  have hnone : ∀ {q : Prop}, t.sends = [] → q := fun hnil => by
    rw [hnil] at hs
    cases hs
  rcases op with timeout | j | ⟨j, timeout⟩ | _ | f | ⟨f, j⟩ | f | commands | _ | _ | i | i |
    ⟨i, f⟩ | ⟨i, f⟩ | i | i | key | i | ⟨i, f⟩ | i | i | targetId | ⟨i, j⟩ | i
  · simp only [Process.turn] at ht
    split at ht <;> cases ht
    simp only at hs
    split at hs
    · obtain ⟨f, -, rfl⟩ := List.mem_map.mp hs
      cases hx
    · cases hs
  · simp only [Process.turn] at ht
    split at ht
    · split at ht
      · split at ht <;> cases ht
        exact hnone rfl
      · cases ht
    · cases ht
  · simp only [Process.turn] at ht
    split at ht
    · rename_i rpc _
      split at ht <;> cases ht
      rcases rpc with ⟨source, target, r | r | r | r⟩ <;> exact hnone rfl
    · cases ht
  · cases ht
    exact hnone rfl
  · simp only [Process.turn, Process.workerBuild] at ht
    split at ht
    · split at ht <;> cases ht
      · exact hnone rfl
      · exact hnone rfl
      · rename_i hrun
        obtain rfl := List.mem_singleton.mp hs
        obtain ⟨hlead, hname⟩ := replicateBuild_leader hrun (hu.stateId.trans hu.id.symm)
        rw [hname, hu.id] at hx
        exact ⟨hlead, (Option.some.inj hx).symm⟩
    · cases ht
  · obtain ⟨answer, -, ht⟩ := Option.bind_eq_some_iff.mp ht
    unfold Process.workerAnswer at ht
    split at ht
    · split at ht <;> cases ht
      exact hnone rfl
    · cases ht
  · exact hnone (workerFail_quiet hu ht).sends
  · simp only [Process.turn] at ht
    split at ht <;> cases ht <;> exact hnone rfl
  · cases ht
    exact hnone rfl
  · cases ht
    exact hnone rfl
  · exact hnone (lockReplication_quiet hu ht).sends
  · exact hnone (beginRound_quiet hu ht).sends
  · exact hnone (submitTask_quiet hu ht).sends
  · exact hnone (collectTask_quiet hu ht).sends
  · simp only [Process.turn, Process.finishRound] at ht
    split at ht
    · split at ht
      · cases ht
        exact hnone rfl
      · split at ht <;> cases ht <;> exact hnone rfl
    · cases ht
      exact hnone rfl
    · split at ht
      · rename_i hrun
        cases ht
        obtain rfl := List.mem_singleton.mp hs
        obtain ⟨hlead, rfl⟩ := transferSelect_leader hrun
        simp only [Request.leader, hu.id] at hx
        exact ⟨hlead, (Option.some.inj hx).symm⟩
      · cases ht
        exact hnone rfl
    · cases ht
  · exact hnone (submitResults_quiet hu ht).sends
  · simp only [Process.turn] at ht
    split at ht <;> cases ht <;> exact hnone rfl
  · exact hnone (confirmStart_quiet hu ht).sends
  · exact hnone (confirmPoll_quiet hu ht).sends
  · exact hnone (confirmFinish_quiet hu ht).sends
  · simp only [Process.turn] at ht
    split at ht <;> cases ht
    exact hnone rfl
  · cases ht
    exact hnone rfl
  · obtain ⟨answer, -, ht⟩ := Option.bind_eq_some_iff.mp ht
    unfold Process.transferAnswer at ht
    split at ht
    · split at ht <;> cases ht
      exact hnone rfl
    · cases ht
  · simp only [Process.turn] at ht
    split at ht <;> cases ht
    exact hnone rfl

end Sends

/-! ## 3. Who is named -/

/-- The members that lead, the members that nodes take for the leader, and the senders of leaders'
requests all became leader in the term at hand. -/
structure Attributed (c : Cluster) : Prop where
  leading : ∀ v p, c.process v = some p → p.node.state.role = .leader →
    (p.node.state.currentTerm, v) ∈ c.leaders
  named : ∀ v p l, c.process v = some p → p.node.state.leaderId = some l →
    (p.node.state.currentTerm, l) ∈ c.leaders
  sent : ∀ rpc ∈ c.rpcs, ∀ x, rpc.request.leader = some x → x.2 = rpc.source ∧ x ∈ c.leaders

section Attributed

variable {c : Cluster} {g : Grp} {v : NodeId} {p : Process} {op : Op} {t : Turn}

/-- A turn leaves a node that names nobody, itself, whom it named, or a leader it heard of. -/
theorem Attributed.turn_names (ha : Attributed c) (ht : p.turn c v op = some t) :
    Renames (fun term l => (term, l) ∈ c.leaders) p.node t.process.node := by
  have hsent {i : Nat} {rpc : Rpc} {x : Int × NodeId} (hrpc : c.rpcs[i]? = some rpc)
      (hx : rpc.request.leader = some x) : x ∈ c.leaders :=
    (ha.sent rpc (List.mem_of_getElem? hrpc) x hx).2
  have hs := turn_stretch ht
  generalize t.process.node = n' at hs ⊢
  cases hs with
  | tickStart => exact RaftNode.tickStart_names _ _
  | tickResponse => exact RaftNode.tickResponse_names _ _ _ _
  | requestVote => exact RaftNode.handleRequestVote_names _ _ _
  | appendEntries hrpc => exact RaftNode.handleAppendEntries_names _ _ (hsent hrpc rfl) _
  | installSnapshot hrpc => exact RaftNode.handleInstallSnapshot_names _ _ (hsent hrpc rfl) _
  | timeoutNow hrpc => exact RaftNode.handleTimeoutNow_names _ (hsent hrpc rfl) _
  | createSnapshot => exact RaftNode.createSnapshot_names _
  | replicateBuild => exact RaftNode.replicateBuild_names _ _
  | replicateResponse => exact RaftNode.replicateResponse_names _ _ _ _ _
  | submitStart => exact RaftNode.submitStart_names _ _
  | replicateLogStart => exact RaftNode.replicateLogStart_names _
  | transferStart => exact RaftNode.transferStart_names _ _
  | roundStart => exact RaftNode.roundStart_names _
  | replicateLogFinish => exact RaftNode.replicateLogFinish_names _
  | transferSelect => exact RaftNode.transferSelect_names _ _ _ _
  | transferMiss =>
    exact (RaftNode.transferSelect_names _ _ _ _).trans (RaftNode.transferEnd_names _)
  | submitResults => exact RaftNode.submitResults_names _ _
  | getStart => exact RaftNode.getStart_names _ _ _
  | confirmStart => exact RaftNode.confirmStart_names _
  | confirmFinish => exact RaftNode.confirmFinish_names _ _ _ _
  | getFinish => exact RaftNode.getFinish_names _ _ _
  | transferResponse =>
    exact (RaftNode.transferResponse_names _ _ _).trans (RaftNode.transferEnd_names _)
  | transferFail => exact RaftNode.transferEnd_names _
  | roundRaise => exact (RaftNode.roundStart_names _).trans (RaftNode.transferEnd_names _)
  | same => exact .refl _

/-- Who is on record as a leader stays so. -/
theorem Cluster.finish_leaders (c : Cluster) (v : NodeId) (op : Op) (t : Turn) :
    (∀ x ∈ c.leaders, x ∈ (c.finish v op t).leaders) ∧
      (t.process.node.state.role = .leader →
        (t.process.node.state.currentTerm, v) ∈ (c.finish v op t).leaders) := by
  unfold Cluster.finish
  simp only
  split
  · exact ⟨fun x hx => List.mem_append_left _ hx,
      fun _ => List.mem_append_right _ (List.mem_singleton.mpr rfl)⟩
  · rename_i hnot
    refine ⟨fun _ => id, fun hlead => ?_⟩
    by_contra hmem
    exact hnot ⟨hlead, hmem⟩

/-- A turn to its end. -/
theorem Attributed.finish (ha : Attributed c) (hr : Refines c g) (hp : c.process v = some p)
    (ht : p.turn c v op = some t) : Attributed (c.finish v op t) := by
  obtain ⟨hold, hnew⟩ := c.finish_leaders v op t
  have hnames := ha.turn_names ht
  constructor
  · intro u q hq hlead
    by_cases hu : u = v
    · subst hu
      rw [Cluster.finish_process_self] at hq
      cases hq
      exact hnew hlead
    · rw [Cluster.finish_process_of_ne _ _ _ hu] at hq
      exact hold _ (ha.leading u q hq hlead)
  · intro u q l hq hl
    by_cases hu : u = v
    · subst hu
      rw [Cluster.finish_process_self] at hq
      cases hq
      rcases hnames.named l hl with hheard | ⟨hlead, rfl⟩ | ⟨hl, hterm, -⟩
      · exact hold _ hheard
      · rw [hnames.id, (hr.up u p hp).stateId]
        exact hnew hlead
      · rw [hterm]
        exact hold _ (ha.named u p l hp hl)
    · rw [Cluster.finish_process_of_ne _ _ _ hu] at hq
      exact hold _ (ha.named u q l hq hl)
  · intro rpc hmem x hx
    rcases List.mem_append.mp hmem with hmem | hmem
    · obtain ⟨hsource, hled⟩ := ha.sent rpc hmem x hx
      exact ⟨hsource, hold _ hled⟩
    · obtain ⟨s, hs, rfl⟩ := List.mem_map.mp hmem
      obtain ⟨hlead, rfl⟩ := turn_sends (hr.up v p hp) ht s hs x hx
      exact ⟨rfl, hold _ (ha.leading v p hp hlead)⟩

/-- A member that is down names nobody. -/
theorem Attributed.down (ha : Attributed c) {c' : Cluster} (hl : c'.leaders = c.leaders)
    (hrpcs : c'.rpcs = c.rpcs) (hp : ∀ u q, c'.process u = some q → c.process u = some q ∨
      q.node.state.role = .follower ∧ q.node.state.leaderId = none) : Attributed c' := by
  constructor
  · intro u q hq hlead
    rcases hp u q hq with hq | ⟨hrole, -⟩
    · rw [hl]
      exact ha.leading u q hq hlead
    · rw [hrole] at hlead
      cases hlead
  · intro u q l hq hname
    rcases hp u q hq with hq | ⟨-, hnone⟩
    · rw [hl]
      exact ha.named u q l hq hname
    · rw [hnone] at hname
      cases hname
  · rw [hl, hrpcs]
    exact ha.sent

/-- A node starts naming nobody. -/
theorem init_nameless {v : NodeId} {m : Members} {d : DataDir} {clock : Clock} {n : RaftNode}
    (hinit : (RaftNode.init v m d clock).result = .ok n) :
    n.state.role = .follower ∧ n.state.leaderId = none := by
  unfold RaftNode.init at hinit
  split at hinit
  · cases hinit
  simp only at hinit
  repeat' split at hinit
  all_goals first
    | (cases hinit; exact ⟨rfl, rfl⟩)
    | cases hinit

/-- A member that goes down, whatever is on its disk. -/
theorem Attributed.fall (ha : Attributed c) (v : NodeId) (ws : List Write)
    (committed : List LogEntry) : Attributed { c.down v ws with committed } := by
  refine ha.down rfl rfl fun u q (hq : (c.down v ws).process u = some q) => Or.inl ?_
  have hu : u ≠ v := by
    rintro rfl
    rw [Cluster.down_process_self] at hq
    cases hq
  rwa [Cluster.down_process_of_ne _ _ hu] at hq

theorem Attributed.step (ha : Attributed c) (hr : Refines c g) {a : Action} {c' : Cluster}
    (hs : c.step a = some c') : Attributed c' := by
  rcases a with ms | ⟨v, timeout⟩ | ⟨v, timeout, effects⟩ | ⟨v, op⟩ | ⟨v, op, effects⟩
  · cases hs
    exact { ha with }
  · simp only [Cluster.step] at hs
    split at hs
    · cases hs
    split at hs
    · split at hs
      · cases hs
        exact ha.fall v _ c.committed
      · rename_i n hrun
        cases hs
        refine ha.down rfl rfl fun u q hq => ?_
        have hq : Function.update c.process v (some ({ node := n } : Process)) u = some q := hq
        by_cases hu : u = v
        · subst hu
          rw [Function.update_self] at hq
          cases hq
          exact Or.inr (init_nameless hrun)
        · rw [Function.update_of_ne hu] at hq
          exact Or.inl hq
    · cases hs
  · simp only [Cluster.step] at hs
    split at hs <;> cases hs
    exact ha.fall v _ c.committed
  · simp only [Cluster.step] at hs
    split at hs
    · cases hs
    rename_i p hp
    obtain ⟨t, ht, rfl⟩ := Option.map_eq_some_iff.mp hs
    exact ha.finish hr hp ht
  · simp only [Cluster.step] at hs
    split at hs
    · cases hs
    obtain ⟨t, -, rfl⟩ := Option.map_eq_some_iff.mp hs
    exact ha.fall v _ _

/-- **In every reachable state** requests and nodes name leaders. -/
theorem Cluster.Reachable.attributed {m : Members} (hc : Reachable m c) : Attributed c := by
  induction hc with
  | refl =>
    constructor
    · intro v p hp
      cases hp
    · intro v p l hp
      cases hp
    · intro rpc hmem
      cases hmem
  | tail hl hs ih =>
    obtain ⟨g, hr, -⟩ := Reachable.refines hl
    obtain ⟨a, hs⟩ := hs
    exact ih.step hr hs

end Attributed

/-- In the state `c` somebody takes `l` for the leader of `term`: a request in the network is sent
by `l` as the leader, or a node that is in that term has it as its `leader_id`. -/
inductive TakenForLeader (c : Cluster) (term : Int) (l : NodeId) : Prop
  | sender {rpc : Rpc} (hmem : rpc ∈ c.rpcs) (hleader : rpc.request.leader = some (term, l))
  | named {v : NodeId} {p : Process} (hp : c.process v = some p)
      (hterm : p.node.state.currentTerm = term) (hname : p.node.state.leaderId = some l)

theorem Attributed.taken {c : Cluster} (ha : Attributed c) {term : Int} {l : NodeId}
    (h : TakenForLeader c term l) : (term, l) ∈ c.leaders := by
  cases h with
  | sender hmem hleader => exact (ha.sent _ hmem _ hleader).2
  | named hp hterm hname => exact hterm ▸ ha.named _ _ _ hp hname

/-- Somebody takes `l` for the leader of `term`, or `l` is a node that leads in it. -/
def SeenLeading (c : Cluster) (term : Int) (l : NodeId) : Prop :=
  TakenForLeader c term l ∨ LeadsIn c l term

theorem Attributed.seen {c : Cluster} (ha : Attributed c) {term : Int} {l : NodeId}
    (h : SeenLeading c term l) : (term, l) ∈ c.leaders := by
  rcases h with htaken | ⟨p, hp, hlead, rfl⟩
  · exact ha.taken htaken
  · exact ha.leading l p hp hlead

/-- **One leader for a term, for everybody.**  Whoever is taken for the leader of a term, by a
request or by a node, or leads in it, did become leader in it; and whoever else, at any other time
of the run, is taken for the leader of that term or leads in it is the same member. -/
theorem leader_named_once {m : Members} {c c' : Cluster} (hc : Reachable m c) (hl : Leads c c')
    {term : Int} {l l' : NodeId} (h : SeenLeading c term l) (h' : SeenLeading c' term l') :
    (term, l) ∈ c.leaders ∧ l = l' := by
  obtain ⟨g, hr, -⟩ := hc.refines
  obtain ⟨g', hr', -, hx, -⟩ := hl.follows hr
  have ha' : Attributed c' := Reachable.attributed (hc.trans hl)
  have hmem := hc.attributed.seen h
  refine ⟨hmem, ?_⟩
  obtain ⟨e, he, het, hel⟩ := hr.leaders _ hmem
  obtain ⟨e', he', het', hel'⟩ := hr'.leaders _ (ha'.seen h')
  obtain rfl := hr'.sound.history.election_unique e (hx.elections.subset he) e' he'
    (het.trans het'.symm)
  exact hel.symm.trans hel'

/-- The follower that copied the first write takes its leader for the leader. -/
theorem leader_named_once_firstWrite : (1, "a") ∈ afterFirstWrite.leaders ∧
    ∀ l', LeadsIn afterFirstWrite l' 1 → "a" = l' := by
  have hup : (afterFirstWrite.process "b").map (fun p =>
      (p.node.state.currentTerm, p.node.state.leaderId)) = some (1, some "a") := by
    decide +kernel
  obtain ⟨p, hp, heq⟩ := Option.map_eq_some_iff.mp hup
  obtain ⟨hterm, hname⟩ := Prod.mk.inj heq
  have hleads : LeadsIn afterFirstWrite "a" 1 := by decide +kernel
  have honce : ∀ l', LeadsIn afterFirstWrite l' 1 →
      (1, "a") ∈ afterFirstWrite.leaders ∧ "a" = l' := fun l' h =>
    leader_named_once afterFirstWrite_reachable .refl
    (Or.inl (.named hp hterm hname)) (Or.inr h)
  exact ⟨(honce "a" hleads).1, fun l' hl' => (honce l' hl').2⟩

/-! ## 4. What requests say is committed -/

/-- What a request of a leader says is committed, is in `committed`. -/
inductive Request.Honest (committed : List LogEntry) : Request → Prop
  | requestVote (r : RequestVoteRequest) : Honest committed (.requestVote r)
  | appendEntries {r : AppendEntriesRequest} (hprev : 0 ≤ r.prevLogIndex)
      (hnonneg : 0 ≤ r.leaderCommit) (hcommit : r.leaderCommit ≤ committed.length)
      (hlast : r.leaderCommit ≤ r.prevLogIndex + r.entries.length)
      (hindex : Contiguous r.prevLogIndex r.entries)
      (hentries : ∀ e ∈ r.entries, e.index ≤ r.leaderCommit →
        committed[(e.index - 1).toNat]? = some e)
      (hterm : r.prevLogIndex ≤ r.leaderCommit →
        r.prevLogTerm = lastStamp (committed.take r.prevLogIndex.toNat)) :
      Honest committed (.appendEntries r)
  | installSnapshot {r : InstallSnapshotRequest} (hnonneg : 0 ≤ r.lastIncludedIndex)
      (hcovered : r.lastIncludedIndex ≤ committed.length)
      (hterm : r.lastIncludedTerm = lastStamp (committed.take r.lastIncludedIndex.toNat))
      (hstate : Replays (committed.take r.lastIncludedIndex.toNat) ⟨r.state⟩) :
      Honest committed (.installSnapshot r)
  | timeoutNow (r : TimeoutNowRequest) : Honest committed (.timeoutNow r)

theorem Appends.honest {c : Cluster} {g : Grp} (hr : Refines c g) {r : AppendEntriesRequest}
    (h : Appends g.history r) : (Request.appendEntries r).Honest c.committed := by
  obtain ⟨prev, last, commit, h⟩ := h
  have hw := hr.whole r.term
  have hlast := h.last_le
  have hle := h.commit_le
  have hprev := h.prev_le
  -- what the leader knew decided is committed
  have hpre : (g.history.leaderLog r.term).take commit <+: c.committed :=
    (hr.committed _).mp h.decided.decided
  have hlen : ((g.history.leaderLog r.term).take commit).length = commit :=
    List.length_take_of_le (hle.trans hlast)
  have hcut : c.committed.take commit = (g.history.leaderLog r.term).take commit := by
    have := prefix_eq_take hpre
    rwa [hlen] at this
  have hcontiguous : Contiguous (prev : Int) r.entries := by
    rw [h.entries]
    simpa using (hw.of_isPrefix (List.take_prefix last _)).contiguous.drop prev
  refine .appendEntries ?_ ?_ ?_ ?_ ?_ (fun e he hei => ?_) fun hpc => ?_
  · rw [h.prevIndex]
    omega
  · rw [h.leaderCommit]
    omega
  · have := hpre.length_le
    rw [h.leaderCommit]
    omega
  · rw [h.leaderCommit, h.prevIndex, h.entries, List.length_drop, List.length_take_of_le hlast]
    omega
  · rw [h.prevIndex]
    exact hcontiguous
  · rw [h.leaderCommit] at hei
    obtain ⟨i, hi⟩ := List.mem_iff_getElem?.mp he
    have hidx : e.index = prev + i + 1 := by
      have := hcontiguous i e hi
      omega
    rw [h.entries, List.getElem?_drop, List.getElem?_take] at hi
    split at hi
    · rw [show (e.index - 1).toNat = prev + i by omega]
      refine getElem?_mono hpre ?_
      rw [List.getElem?_take, if_pos (by omega), hi]
    · cases hi
  · rw [h.prevIndex, h.leaderCommit] at hpc
    rw [h.prevTerm, h.prevIndex, Int.toNat_natCast]
    have hmin : min prev commit = prev := by omega
    rw [← hmin, ← List.take_take, ← List.take_take, hcut]

theorem Installs.honest {c : Cluster} {g : Grp} (hr : Refines c g) {r : InstallSnapshotRequest}
    (h : Installs g.history r) : (Request.installSnapshot r).Honest c.committed := by
  obtain ⟨-, k, hk, hindex, hterm, hstate, hdec⟩ := h
  have hpre := (hr.committed _).mp hdec
  have hlen : ((g.history.leaderLog r.term).take k).length = k := List.length_take_of_le hk
  have hcut : c.committed.take k = (g.history.leaderLog r.term).take k := by
    have := prefix_eq_take hpre
    rwa [hlen] at this
  have hle := hpre.length_le
  refine .installSnapshot ?_ ?_ ?_ ?_
  · rw [hindex]
    omega
  · rw [hindex]
    omega
  · rw [hindex, Int.toNat_natCast, hcut, hterm]
  · rw [hindex, Int.toNat_natCast, hcut]
    exact hstate

/-- **Requests are honest about what is committed**, however late they arrive: an AppendEntries
claims no more than is committed and its entries up to there are the committed ones, and the
snapshot of an InstallSnapshot is what the committed entries up to its index give. -/
theorem in_flight_honest {m : Members} {c c' : Cluster} (hc : Reachable m c) (hl : Leads c c') :
    ∀ rpc ∈ c.rpcs, rpc.request.Honest c.committed ∧ rpc.request.Honest c'.committed := by
  intro rpc hmem
  obtain ⟨g, hr, -⟩ := hc.refines
  obtain ⟨g', hr', -, hx, -⟩ := hl.follows hr
  have hknown := hr.rpcs rpc hmem
  have hknown' := hknown.extend hx hr.sound.history
  rcases rpc with ⟨source, target, r | r | r | r⟩
  · exact ⟨.requestVote r, .requestVote r⟩
  · exact ⟨Appends.honest hr hknown, Appends.honest hr' hknown'⟩
  · exact ⟨Installs.honest hr hknown, Installs.honest hr' hknown'⟩
  · exact ⟨.timeoutNow r, .timeoutNow r⟩

/-- The requests of the first write, after the next election. -/
theorem in_flight_honest_firstWrite : afterFirstWrite.rpcs ≠ [] ∧
    ∀ rpc ∈ afterFirstWrite.rpcs, rpc.request.Honest afterFirstWrite.committed ∧
      rpc.request.Honest afterSecondElection.committed := by
  have hl : Leads afterFirstWrite afterSecondElection :=
    (runs_leads (Option.some_get secondCampaign_runs).symm).tail
      ⟨_, (Option.some_get secondElection_steps).symm⟩
  have hsent : afterFirstWrite.rpcs.length ≠ 0 := by decide +kernel
  exact ⟨fun h => hsent (by rw [h]; rfl), in_flight_honest afterFirstWrite_reachable hl⟩

end PyRaftKv
