/-
# Who holds the replication lock

A call takes `_replication_lock` and keeps it over many stretches, and a transfer sets
`_leadership_transfer_in_progress` while it does.  `LockSound` is what any process keeps: the calls
that are where the lock is held are one at most, the one the lock names, and the flag is set exactly
while that call is a transfer.

No other stretch touches the flag (`Standing`), and few touch the log.
-/
import PyRaftKv.Refinement.Inversion

namespace PyRaftKv

/-! ## 1. Stretches that leave the log and the flag -/

/-- The transfer flag is where it was. -/
def SameFlag (n n' : RaftNode) : Prop :=
  n'.leadershipTransferInProgress = n.leadershipTransferInProgress

/-- So is the log. -/
structure Standing (n n' : RaftNode) : Prop where
  log : n'.log = n.log
  flag : SameFlag n n'

/-- So is the state record. -/
structure Resting (n n' : RaftNode) : Prop extends Standing n n' where
  state : n'.state = n.state

instance : Std.Refl SameFlag := ⟨fun _ => rfl⟩
instance : IsTrans RaftNode SameFlag := ⟨fun _ _ _ h h' => Eq.trans h' h⟩
instance : Std.Refl Standing := ⟨fun _ => ⟨rfl, rfl⟩⟩
instance : IsTrans RaftNode Standing :=
  ⟨fun _ _ _ h h' => ⟨h'.log.trans h.log, h'.flag.trans h.flag⟩⟩
instance : Std.Refl Resting := ⟨fun _ => ⟨⟨rfl, rfl⟩, rfl⟩⟩
instance : IsTrans RaftNode Resting :=
  ⟨fun _ _ _ h h' => ⟨⟨h'.log.trans h.log, h'.flag.trans h.flag⟩, h'.state.trans h.state⟩⟩

namespace RaftNode

open NodeM (Keeping)

theorem applyCommitted_stands : Keeping Standing applyCommitted := fun _ => ⟨rfl, rfl⟩

theorem persistState_rests : Keeping Resting persistState := .bind .get fun _ => .persist _

theorem persistState_stands : Keeping Standing persistState :=
  persistState_rests.mono Resting.toStanding

theorem persistTerm_stands (previousTerm : Int) : Keeping Standing (persistTerm previousTerm) :=
  .bind .get fun _ => .ite persistState_stands (.pure ())

theorem becomeFollower_stands (term : Int) (leaderId : Option NodeId) :
    Keeping Standing (becomeFollower term leaderId) :=
  .bind .get fun _ => .bind (.lift _) fun _ => .modify fun _ => ⟨rfl, rfl⟩

theorem dropReplication_rests : Keeping Resting (NodeM.modify dropReplication) := by
  refine .modify fun n => ?_
  obtain ⟨replication, heq⟩ := dropReplication_only n
  rw [heq]
  exact ⟨⟨rfl, rfl⟩, rfl⟩

theorem initializeLeaderReplication_stands : Keeping Standing initializeLeaderReplication := by
  refine .bind .get fun n => .ite (.modify fun _ => ⟨rfl, rfl⟩) ?_
  exact .ite (.bind (.lift _) fun _ => .modify fun _ => ⟨rfl, rfl⟩) (.pure ())

theorem handleRequestVote_stands (clock : Clock) (r : RequestVoteRequest) :
    Keeping Standing (handleRequestVote clock r) := by
  refine .bind .get fun n => .bind (.lift _) fun _ => ?_
  refine .bind (.modify fun _ => ⟨rfl, rfl⟩) fun _ => ?_
  refine .bind persistState_stands fun _ => ?_
  have hdrop : Keeping Standing (NodeM.modify dropReplication) :=
    dropReplication_rests.mono Resting.toStanding
  exact .ite (.bind (.modify fun _ => ⟨rfl, rfl⟩) fun _ => .bind hdrop fun _ => .pure _)
    (.bind hdrop fun _ => .pure _)

theorem handleTimeoutNow_stands (r : TimeoutNowRequest) :
    Keeping Standing (handleTimeoutNow r) := by
  refine .bind .get fun n => .ite (.pure _) ?_
  refine .ite (.bind (becomeFollower_stands _ _) fun _ => ?_) ?_
  all_goals
    refine .bind .get fun _ => .bind (persistTerm_stands _) fun _ => ?_
    exact .ite (.bind (.modify fun _ => ⟨rfl, rfl⟩) fun _ => .pure _) (.pure _)

theorem tickStart_stands (clock : Clock) : Keeping Standing (tickStart clock) := by
  refine .bind .get fun n => .bind (.lift _) fun x => ?_
  obtain ⟨requests, state, timer, election⟩ := x
  have hlead : Keeping Standing (if state.role = .leader then
      (do initializeLeaderReplication; return none)
      else pure requests : NodeM (Option RequestVoteRequest)) :=
    .ite (.bind initializeLeaderReplication_stands fun _ => .pure _) (.pure _)
  refine .bind (.modify fun _ => ⟨rfl, rfl⟩) fun _ => ?_
  exact .ite (.bind persistState_stands fun _ => hlead) hlead

theorem tickResponse_stands (peerId : NodeId) (request : RequestVoteRequest)
    (response : RequestVoteResponse) :
    Keeping Standing (tickResponse peerId request response) := by
  refine .bind .get fun n => .ite (.pure _) <| .bind (.lift _) fun x => ?_
  obtain ⟨won, election, state⟩ := x
  have hrole : Keeping Standing (if state.role = .leader then initializeLeaderReplication
      else if state.role = .follower then NodeM.modify fun n => { n with replication := none }
      else pure () : NodeM Unit) :=
    .ite initializeLeaderReplication_stands (.ite (.modify fun _ => ⟨rfl, rfl⟩) (.pure _))
  refine .bind (.modify fun _ => ⟨rfl, rfl⟩) fun _ => ?_
  exact .ite (.bind persistState_stands fun _ => hrole) hrole

theorem replicateBuild_stands (f : NodeId) : Keeping Standing (replicateBuild f) := by
  refine .bind .get fun n => .ite (.pure _) ?_
  split
  · exact .pure _
  · exact .ite (.ite (.raise _) (.pure _)) (.bind (.lift _) fun _ => .pure _)

theorem replicateResponse_stands (f : NodeId) (request : ReplicationRequest) (term : Int)
    (success : Bool) : Keeping Standing (replicateResponse f request term success) := by
  refine .bind .get fun n => ?_
  split
  · exact .pure _
  refine .ite (.pure _) <| .ite (.bind (becomeFollower_stands _ _) fun _ =>
    .bind persistState_stands fun _ => .bind (.modify fun _ => ⟨rfl, rfl⟩) fun _ => .pure _) ?_
  split
  · refine .ite (.pure _) ?_
    exact .bind (.lift _) fun _ => .bind (.modify fun _ => ⟨rfl, rfl⟩) fun _ => .pure _
  · refine .ite ?_ ?_
    all_goals exact .bind (.lift _) fun _ => .bind (.modify fun _ => ⟨rfl, rfl⟩) fun _ => .pure _

theorem replicateLogStart_stands : Keeping Standing replicateLogStart :=
  .bind .get fun _ => .ite (.raise _) <| .bind initializeLeaderReplication_stands fun _ =>
    .bind .get fun _ => .ite (.raise _) (.pure _)

theorem roundStart_stands : Keeping Standing roundStart :=
  .bind .get fun _ => .ite (.pure _) <| .bind initializeLeaderReplication_stands fun _ =>
    .bind .get fun _ => .pure _

theorem replicateLogFinish_stands : Keeping Standing replicateLogFinish := by
  refine .bind .get fun n => ?_
  split
  · exact .pure _
  · refine .ite (.pure _) <| .bind (.modify fun _ => ⟨rfl, rfl⟩) fun _ => ?_
    exact .ite (.bind persistState_stands fun _ => applyCommitted_stands) (.pure _)

theorem submitResults_stands (es : List LogEntry) : Keeping Standing (submitResults es) :=
  .bind .get fun _ => .ite (.pure _) (.pure _)

theorem getStart_stands (key : String) (now : Nat) : Keeping Standing (getStart key now) :=
  .bind .get fun _ => .ite (.raise _) <| .ite
    (.bind applyCommitted_stands fun _ => .bind .get fun _ => .pure _) (.pure _)

theorem confirmStart_stands : Keeping Standing confirmStart := by
  refine .bind .get fun n => .ite (.raise _) <|
    .bind initializeLeaderReplication_stands fun _ => ?_
  refine .bind .get fun _ => ?_
  split
  · exact .raise _
  · exact .pure _

theorem confirmFinish_stands (readTerm : Int) (confirmed : List NodeId) (now : Nat) :
    Keeping Standing (confirmFinish readTerm confirmed now) :=
  .bind .get fun _ => .ite (.raise _) <| .ite (.raise _) <|
    .bind (.modify fun _ => ⟨rfl, rfl⟩) fun _ => applyCommitted_stands

theorem getFinish_stands (key : String) (now : Nat) : Keeping Standing (getFinish key now) :=
  .bind .get fun _ => .ite (.raise _) (.pure _)

theorem transferSelect_stands (targetId : Option NodeId) (term : Int)
    (results : NodeId → Option Bool) : Keeping Standing (transferSelect targetId term results) := by
  refine .bind .get fun _ => ?_
  split
  · exact .pure _
  · exact .ite (.pure _) (.pure _)

theorem transferResponse_stands (term : Int) (response : TimeoutNowResponse) :
    Keeping Standing (transferResponse term response) := by
  have hdrop : Keeping Standing (NodeM.modify fun n => { n with replication := none }) :=
    .modify fun _ => ⟨rfl, rfl⟩
  refine .bind .get fun _ => .ite (.pure _) <| .ite ?_ <| .ite (.pure _) ?_
  · exact .bind (becomeFollower_stands _ _) fun _ => .bind persistState_stands fun _ =>
      .bind hdrop fun _ => .pure _
  · exact .bind (becomeFollower_stands _ _) fun _ => .bind hdrop fun _ => .pure _

/-! ### Those that touch the log -/

theorem createSnapshot_flag : Keeping SameFlag createSnapshot := by
  refine .bind .get fun n => .ite (.pure _) ?_
  split
  · exact .raise _
  · refine .bind (.lift _) fun _ => .bind (.persist _) fun _ => .bind (.lift _) fun _ => ?_
    refine .bind (.lift _) fun _ => .bind (.persist _) fun _ => ?_
    refine .bind (persistState_stands.mono Standing.flag) fun _ => ?_
    exact .bind (.modify fun _ => rfl) fun _ => .pure _

theorem persistLogChange_rests (before after : List LogEntry) :
    Keeping Resting (persistLogChange before after) := by
  refine .ite (.pure _) ?_
  simp only
  split
  · exact .persist _
  · exact .bind (.lift _) fun _ => .persist _

/-- `handle_append_entries`, once the request has been taken. -/
theorem appendEntries_end_rests (clock : Clock) (before after : List LogEntry) (changed : Prop)
    [Decidable changed] (result : Except RaftError AppendEntriesResponse) :
    Keeping Resting (do
      let response ← NodeM.lift result
      persistLogChange before after
      if changed then persistState
      if response.success then
        NodeM.modify fun n => { n with timer := .reset clock.now clock.timeout }
      NodeM.modify dropReplication
      return response) := by
  have hend (a : AppendEntriesResponse) : Keeping Resting (do
      if a.success then
        NodeM.modify fun n => { n with timer := .reset clock.now clock.timeout }
      NodeM.modify dropReplication
      return a) :=
    .ite (.bind (.modify fun n => ⟨⟨rfl, rfl⟩, rfl⟩) fun _ =>
      .bind dropReplication_rests fun _ => .pure _)
      (.bind dropReplication_rests fun _ => .pure _)
  refine .bind (.lift _) fun a => .bind (persistLogChange_rests _ _) fun _ => ?_
  exact .ite (.bind persistState_rests fun _ => hend a) (hend a)

theorem handleAppendEntries_rests (clock : Clock) (r : AppendEntriesRequest) (n : RaftNode) :
    ∃ state log store, (PyRaftKv.handleAppendEntries n.state n.log r n.store).2 =
        (state, log, store) ∧
      Resting { n with state, log, store } (handleAppendEntries clock r n).node := by
  rcases hrun : PyRaftKv.handleAppendEntries n.state n.log r n.store with
    ⟨result, state, log, store⟩
  refine ⟨state, log, store, rfl, ?_⟩
  unfold handleAppendEntries
  simp only [NodeM.bind_run (m := NodeM.get), NodeM.get_run, NodeM.andThen_ok, NodeM.behind_nil,
    hrun]
  rw [NodeM.bind_run, NodeM.modify_run, NodeM.andThen_ok, NodeM.behind_nil]
  exact appendEntries_end_rests clock _ _ _ result _

theorem handleAppendEntries_flag (clock : Clock) (r : AppendEntriesRequest) :
    Keeping SameFlag (handleAppendEntries clock r) := by
  intro n
  obtain ⟨state, log, store, -, hs⟩ := handleAppendEntries_rests clock r n
  exact hs.flag

theorem handleInstallSnapshot_flag (clock : Clock) (r : InstallSnapshotRequest) :
    Keeping SameFlag (handleInstallSnapshot clock r) := by
  have hterm (previousTerm : Int) : Keeping SameFlag (persistTerm previousTerm) :=
    (persistTerm_stands previousTerm).mono Standing.flag
  have hrefuse (previousTerm : Int) (a : InstallSnapshotResponse) :
      Keeping SameFlag (do persistTerm previousTerm; return a) :=
    .bind (hterm _) fun _ => .pure _
  have htimer (a : InstallSnapshotResponse) : Keeping SameFlag (do
      NodeM.modify fun n => { n with timer := .reset clock.now clock.timeout }
      return a) := .bind (.modify fun _ => rfl) fun _ => .pure _
  refine .bind .get fun n => .ite (.pure _) <|
    .bind ((becomeFollower_stands _ _).mono Standing.flag) fun _ => ?_
  refine .bind (.modify fun _ => rfl) fun _ => .bind .get fun n => ?_
  refine .ite (hrefuse _ _) <| .ite (.bind (hterm _) fun _ => htimer _) <|
    .ite (hrefuse _ _) ?_
  refine .bind (.lift _) fun _ => .bind (.lift _) fun _ => ?_
  split
  · exact hrefuse _ _
  · refine .ite (hrefuse _ _) <| .bind (.persist _) fun _ => .bind (.persist _) fun _ => ?_
    refine .bind (.modify fun _ => rfl) fun _ => ?_
    refine .bind (applyCommitted_stands.mono Standing.flag) fun _ => ?_
    exact .bind (persistState_stands.mono Standing.flag) fun _ => htimer _

theorem submitStart_flag (commands : List RaftCommand) :
    Keeping SameFlag (submitStart commands) := by
  refine .bind .get fun n => .ite (.pure _) <| .ite (.raise _) <| .ite (.raise _) ?_
  refine .bind (.lift _) fun _ => .bind (.lift _) fun _ => ?_
  refine .bind (.modify fun _ => rfl) fun _ => .bind (.persist _) fun _ => ?_
  exact .bind (initializeLeaderReplication_stands.mono Standing.flag) fun _ => .pure _

/-- What an inbound request does to the flag. -/
theorem deliver_flag (p : Process) (clock : Clock) (rpc : Nat) (request : Request) :
    SameFlag p.node (p.deliver clock rpc request).process.node := by
  cases request with
  | requestVote r => exact (handleRequestVote_stands clock r p.node).flag
  | appendEntries r => exact handleAppendEntries_flag clock r p.node
  | installSnapshot r => exact handleInstallSnapshot_flag clock r p.node
  | timeoutNow r => exact (handleTimeoutNow_stands r p.node).flag

/-- **The beginning of a transfer** sets the flag when it gives a term, and not otherwise. -/
theorem transferStart_flag (targetId : Option NodeId) (n : RaftNode) :
    (∃ term, (transferStart targetId n).result = .ok (some term) ∧
      (transferStart targetId n).node.leadershipTransferInProgress = true) ∨
    (∀ term, (transferStart targetId n).result ≠ .ok (some term)) ∧
      SameFlag n (transferStart targetId n).node := by
  simp only [transferStart, NodeM.bind_run, NodeM.get_run, NodeM.andThen_ok, NodeM.behind_nil,
    NodeM.ite_run, NodeM.raise_run]
  split
  · exact Or.inr ⟨fun _ h => (by cases h), rfl⟩
  have hinit := (initializeLeaderReplication_stands n).flag
  rcases hrun : initializeLeaderReplication n with ⟨_ | _, n', ws⟩
  · rw [hrun] at hinit
    exact Or.inr ⟨fun _ h => (by cases h), hinit⟩
  · rw [hrun] at hinit
    simp only [NodeM.andThen_ok, Outcome.behind, NodeM.bind_run, NodeM.get_run]
    rcases n'.replication with _ | r
    · exact Or.inr ⟨fun _ h => (by cases h), hinit⟩
    · rcases targetId with _ | target
      · exact Or.inl ⟨_, rfl, rfl⟩
      · simp only [NodeM.ite_run]
        split
        · exact Or.inr ⟨fun _ h => (by cases h), hinit⟩
        · exact Or.inl ⟨_, rfl, rfl⟩

end RaftNode

/-! ## 2. The lock and the flag -/

/-- The call is where it holds `_replication_lock`. -/
def Call.holdsLock : Call → Bool
  | .replicateRound _ _ => true
  | .heartbeatRound _ _ => true
  | .confirming _ _ _ => true
  | .transferRound _ _ _ => true
  | .transferWaiting _ _ => true
  | _ => false

/-- The call is a transfer inside its `try`. -/
def Call.transferring : Call → Bool
  | .transferRound _ _ _ => true
  | .transferWaiting _ _ => true
  | _ => false

theorem Call.holdsLock_of_transferring {call : Call} (h : call.transferring = true) :
    call.holdsLock = true := by
  cases call with
  | transferRound => rfl
  | transferWaiting => rfl
  | _ => cases h

/-- **What any process keeps** of the lock and the flag. -/
structure LockSound (p : Process) : Prop where
  fresh : ∀ {i call}, p.calls i = some call → i < p.nextId
  holder : ∀ {i call}, p.calls i = some call → call.holdsLock = true → p.lockHolder = some i
  flag : p.node.leadershipTransferInProgress = true ↔
    ∃ i call, p.calls i = some call ∧ call.transferring = true

namespace LockSound

variable {p q : Process} {i : Nat}

/-- A call that moves while it alone holds the lock, or takes it. -/
theorem alone (h : LockSound p) (i : Nat) (new : Option Call)
    (halone : ∀ j call, j ≠ i → p.calls j = some call → call.holdsLock = false)
    (hcalls : q.calls = Function.update p.calls i new) (hnext : p.nextId ≤ q.nextId)
    (hi : i < q.nextId)
    (hself : ∀ call, new = some call → call.holdsLock = true → q.lockHolder = some i)
    (hflag : q.node.leadershipTransferInProgress = true ↔
      ∃ call, new = some call ∧ call.transferring = true) : LockSound q := by
  have hnew : q.calls i = new := by
    rw [hcalls]
    exact Function.update_self _ _ _
  have hold : ∀ {j}, j ≠ i → q.calls j = p.calls j := fun hj => by
    rw [hcalls]
    exact Function.update_of_ne hj _ _
  constructor
  · intro j call hcall
    by_cases hj : j = i
    · exact hj ▸ hi
    · exact (h.fresh ((hold hj).symm.trans hcall)).trans_le hnext
  · intro j call hcall hlock
    by_cases hj : j = i
    · subst hj
      exact hself call (hnew.symm.trans hcall) hlock
    · rw [halone j call hj ((hold hj).symm.trans hcall)] at hlock
      cases hlock
  · rw [hflag]
    constructor
    · rintro ⟨call, hcall, htransfer⟩
      exact ⟨i, call, hnew.trans hcall, htransfer⟩
    · rintro ⟨j, call, hcall, htransfer⟩
      by_cases hj : j = i
      · subst hj
        exact ⟨call, hnew.symm.trans hcall, htransfer⟩
      · have := halone j call hj ((hold hj).symm.trans hcall)
        rw [Call.holdsLock_of_transferring htransfer] at this
        cases this

/-- A call that moves without the lock, begins or ends. -/
theorem aside (h : LockSound p) (i : Nat) (new : Option Call)
    (hbefore : ∀ call, p.calls i = some call → call.holdsLock = false)
    (hcalls : q.calls = Function.update p.calls i new) (hnext : p.nextId ≤ q.nextId)
    (hi : i < q.nextId) (hself : ∀ call, new = some call → call.holdsLock = false)
    (hholder : ∀ j, j ≠ i → p.lockHolder = some j → q.lockHolder = some j)
    (hflag : SameFlag p.node q.node) : LockSound q := by
  have hnew : q.calls i = new := by
    rw [hcalls]
    exact Function.update_self _ _ _
  have hold : ∀ {j}, j ≠ i → q.calls j = p.calls j := fun hj => by
    rw [hcalls]
    exact Function.update_of_ne hj _ _
  constructor
  · intro j call hcall
    by_cases hj : j = i
    · exact hj ▸ hi
    · exact (h.fresh ((hold hj).symm.trans hcall)).trans_le hnext
  · intro j call hcall hlock
    by_cases hj : j = i
    · subst hj
      rw [hself call (hnew.symm.trans hcall)] at hlock
      cases hlock
    · exact hholder j hj (h.holder ((hold hj).symm.trans hcall) hlock)
  · rw [hflag, h.flag]
    constructor
    · rintro ⟨j, call, hcall, htransfer⟩
      have hj : j ≠ i := by
        rintro rfl
        have := hbefore call hcall
        rw [Call.holdsLock_of_transferring htransfer] at this
        cases this
      exact ⟨j, call, (hold hj).trans hcall, htransfer⟩
    · rintro ⟨j, call, hcall, htransfer⟩
      have hj : j ≠ i := by
        rintro rfl
        have := hself call (hnew.symm.trans hcall)
        rw [Call.holdsLock_of_transferring htransfer] at this
        cases this
      exact ⟨j, call, (hold hj).symm.trans hcall, htransfer⟩

/-- Nothing moves. -/
theorem still (h : LockSound p) (hcalls : q.calls = p.calls) (hnext : p.nextId ≤ q.nextId)
    (hholder : q.lockHolder = p.lockHolder) (hflag : SameFlag p.node q.node) : LockSound q where
  fresh hcall := (h.fresh ((congrFun hcalls _).symm.trans hcall)).trans_le hnext
  holder hcall hlock := hholder.trans (h.holder ((congrFun hcalls _).symm.trans hcall) hlock)
  flag := by rw [hflag, h.flag, hcalls]

/-- Where a call holds the lock, no other does. -/
theorem unique (h : LockSound p) {call : Call} (hcall : p.calls i = some call)
    (hlock : call.holdsLock = true) :
    ∀ j other, j ≠ i → p.calls j = some other → other.holdsLock = false := by
  intro j other hj hother
  by_contra hheld
  rw [Bool.not_eq_false] at hheld
  exact hj (Option.some.inj ((h.holder hother hheld).symm.trans (h.holder hcall hlock)))

/-- Where nobody holds the lock, no call does. -/
theorem free (h : LockSound p) (hfree : p.lockHolder = none) :
    ∀ j call, p.calls j = some call → call.holdsLock = false := by
  intro j call hcall
  by_contra hheld
  rw [Bool.not_eq_false] at hheld
  rw [h.holder hcall hheld] at hfree
  cases hfree

theorem flag_free (h : LockSound p) (hfree : p.lockHolder = none) :
    p.node.leadershipTransferInProgress = false := by
  by_contra hset
  rw [Bool.not_eq_false] at hset
  obtain ⟨j, call, hcall, htransfer⟩ := h.flag.mp hset
  have := h.free hfree j call hcall
  rw [Call.holdsLock_of_transferring htransfer] at this
  cases this

/-- The call that holds the lock tells whether the flag is set. -/
theorem flag_eq (h : LockSound p) {call : Call} (hcall : p.calls i = some call)
    (hlock : call.holdsLock = true) :
    p.node.leadershipTransferInProgress = call.transferring := by
  rw [Bool.eq_iff_iff, h.flag]
  constructor
  · rintro ⟨j, other, hother, htransfer⟩
    obtain rfl : j = i := by
      by_contra hj
      have := h.unique hcall hlock j other hj hother
      rw [Call.holdsLock_of_transferring htransfer] at this
      cases this
    rwa [Option.some.inj (hcall.symm.trans hother)]
  · exact fun htransfer => ⟨i, call, hcall, htransfer⟩

/-- A call begins. -/
theorem begun (h : LockSound p) {call : Call} (hcall : call.holdsLock = false)
    (hcalls : q.calls = p.calls) (hnext : q.nextId = p.nextId)
    (hholder : q.lockHolder = p.lockHolder) (hflag : SameFlag p.node q.node) :
    LockSound (q.newCall call) := by
  refine h.aside p.nextId (some call) (fun old hold => ?_) ?_ ?_ ?_ ?_ ?_ hflag
  · exact absurd (h.fresh hold) (lt_irrefl _)
  · rw [← hnext, ← hcalls]
    rfl
  · exact hnext ▸ Nat.le_succ _
  · exact hnext ▸ Nat.lt_succ_self _
  · rintro _ ⟨⟩
    exact hcall
  · exact fun _ _ hj => hholder.trans hj

/-- The call that holds the lock goes on with it. -/
theorem goesOn (h : LockSound p) {old call : Call} (hold : p.calls i = some old)
    (hlock : old.holdsLock = true) (hcalls : q.calls = p.calls) (hnext : p.nextId ≤ q.nextId)
    (hholder : q.lockHolder = p.lockHolder)
    (hflag : q.node.leadershipTransferInProgress = call.transferring) :
    LockSound (q.setCall i (some call)) := by
  refine h.alone i (some call) (h.unique hold hlock) ?_ hnext
    ((h.fresh hold).trans_le hnext) (fun _ _ _ => hholder.trans (h.holder hold hlock)) ?_
  · rw [← hcalls]
    rfl
  · change q.node.leadershipTransferInProgress = true ↔ _
    simp [hflag]

/-- The call that holds the lock ends. -/
theorem ends (h : LockSound p) {old : Call} (hold : p.calls i = some old)
    (hlock : old.holdsLock = true) (hcalls : q.calls = p.calls) (hnext : q.nextId = p.nextId)
    (hflag : q.node.leadershipTransferInProgress = false) : LockSound (q.endCall i) := by
  refine h.alone i none (h.unique hold hlock) ?_ hnext.ge
    (hnext ▸ h.fresh hold) (fun _ hnone => nomatch hnone) ?_
  · rw [← hcalls]
    rfl
  · change q.node.leadershipTransferInProgress = true ↔ _
    simp [hflag]

/-- The call that holds the lock lets go of it. -/
theorem lets (h : LockSound p) {old call : Call} (hold : p.calls i = some old)
    (hlock : old.holdsLock = true) (hcall : call.holdsLock = false) (hcalls : q.calls = p.calls)
    (hnext : q.nextId = p.nextId) (hflag : q.node.leadershipTransferInProgress = false) :
    LockSound (q.release i call) := by
  have hnot : call.transferring = false := by
    by_contra htransfer
    rw [Bool.not_eq_false] at htransfer
    rw [Call.holdsLock_of_transferring htransfer] at hcall
    cases hcall
  refine h.alone i (some call) (h.unique hold hlock) ?_ hnext.ge
    (hnext ▸ h.fresh hold) ?_ ?_
  · rw [← hcalls]
    rfl
  · rintro _ ⟨⟩ hheld
    rw [hcall] at hheld
    cases hheld
  · change q.node.leadershipTransferInProgress = true ↔ _
    simp [hflag, hnot]

/-- A call that raises inside a round. -/
theorem aborts (h : LockSound p) {old : Call} (hold : p.calls i = some old)
    (hlock : old.holdsLock = true) (hcalls : q.calls = p.calls) (hnext : q.nextId = p.nextId)
    (hnot : ∀ rpc term, old ≠ .transferWaiting term rpc) (hflag : SameFlag p.node q.node) :
    LockSound (q.abort i) := by
  unfold Process.abort
  rw [congrFun hcalls i, hold]
  have heq := h.flag_eq hold hlock
  cases old with
  | transferRound targetId term round => exact h.ends hold hlock hcalls hnext rfl
  | transferWaiting term rpc => exact absurd rfl (hnot rpc term)
  | replicateRound | heartbeatRound | confirming =>
    exact h.ends hold hlock hcalls hnext (hflag.trans heq)
  | _ => cases hlock

/-- A call without the lock ends. -/
theorem endsAside (h : LockSound p) {old : Call} (hold : p.calls i = some old)
    (hlock : old.holdsLock = false) (hcalls : q.calls = p.calls) (hnext : q.nextId = p.nextId)
    (hholder : q.lockHolder = p.lockHolder) (hflag : SameFlag p.node q.node) :
    LockSound (q.endCall i) := by
  refine h.aside i none (fun call hcall => ?_) ?_ hnext.ge (hnext ▸ h.fresh hold)
    (fun _ hnone => nomatch hnone) (fun j hj hheld => ?_) hflag
  · rwa [Option.some.inj (hcall.symm.trans hold)]
  · rw [← hcalls]
    rfl
  · change (if q.lockHolder = some i then none else q.lockHolder) = some j
    rw [hholder, hheld, if_neg (fun heq => hj (Option.some.inj heq))]

/-- A call without the lock goes on without it. -/
theorem goesAside (h : LockSound p) {old call : Call} (hold : p.calls i = some old)
    (hlock : old.holdsLock = false) (hcall : call.holdsLock = false) (hcalls : q.calls = p.calls)
    (hnext : q.nextId = p.nextId) (hholder : q.lockHolder = p.lockHolder)
    (hflag : SameFlag p.node q.node) : LockSound (q.setCall i (some call)) := by
  refine h.aside i (some call) (fun other hother => ?_) ?_ hnext.ge (hnext ▸ h.fresh hold) ?_
    (fun j _ hheld => hholder.trans hheld) hflag
  · rwa [Option.some.inj (hother.symm.trans hold)]
  · rw [← hcalls]
    rfl
  · rintro _ ⟨⟩
    exact hcall

/-- A call takes the lock and goes on, or ends at once. -/
theorem takes (h : LockSound p) (new : Option Call) {old : Call} (hold : p.calls i = some old)
    (hfree : p.lockHolder = none) (hcalls : q.calls = Function.update p.calls i new)
    (hnext : q.nextId = p.nextId) (hself : new.isSome → q.lockHolder = some i)
    (hflag : q.node.leadershipTransferInProgress = (new.map Call.transferring).getD false) :
    LockSound q := by
  refine h.alone i new (fun j call _ hcall => h.free hfree j call hcall) hcalls hnext.ge
    (hnext ▸ h.fresh hold) (fun call hcall _ => hself (hcall ▸ rfl)) ?_
  rw [hflag]
  cases new <;> simp

end LockSound

section Turns

variable {c : Cluster} {v : NodeId} {p : Process} {op : Op} {t : Turn} {i : Nat} {f : NodeId}

theorem lockReplication_locks (h : LockSound p) (ht : p.lockReplication i = some t) :
    LockSound t.process := by
  unfold Process.lockReplication at ht
  split at ht
  · cases ht
  rename_i hfree
  have hfree := not_not.mp hfree
  have hdown := h.flag_free hfree
  simp only at ht
  split at ht
  · rename_i entries hcall
    have hflag := (RaftNode.replicateLogStart_stands p.node).flag.trans hdown
    split at ht <;> cases ht
    · exact h.takes none hcall hfree rfl rfl (by simp) hflag
    · exact h.takes (some _) hcall hfree rfl rfl (fun _ => rfl) hflag
  · rename_i written hcall
    cases ht
    exact h.takes (some _) hcall hfree rfl rfl (fun _ => rfl) hdown
  · rename_i targetId hcall
    rcases RaftNode.transferStart_flag targetId p.node with ⟨term, hok, hset⟩ | ⟨hnot, hsame⟩
    · rw [hok] at ht
      cases ht
      exact h.takes (some _) hcall hfree rfl rfl (fun _ => rfl) hset
    · split at ht
      · rename_i term hok
        exact absurd hok (hnot term)
      · cases ht
        exact h.takes none hcall hfree rfl rfl (by simp) (hsame.trans hdown)
  · cases ht

/-- The calls that are in a round hold the lock, and a transfer stays one. -/
theorem roundOf_locks {call : Call} {round : Option Round} {next : Option Round → Call}
    (hround : Process.roundOf call = some (round, next)) :
    call.holdsLock = true ∧ (∀ rpc term, call ≠ .transferWaiting term rpc) ∧
      ∀ round', (next round').transferring = call.transferring := by
  cases call with
  | replicateRound entries round =>
    cases hround
    exact ⟨rfl, fun _ _ => nofun, fun _ => rfl⟩
  | heartbeatRound written round =>
    cases hround
    exact ⟨rfl, fun _ _ => nofun, fun _ => rfl⟩
  | transferRound targetId term round =>
    cases hround
    exact ⟨rfl, fun _ _ => nofun, fun _ => rfl⟩
  | _ => cases hround

theorem beginRound_locks (h : LockSound p) (ht : p.beginRound i = some t) :
    LockSound t.process := by
  unfold Process.beginRound at ht
  split at ht
  · rename_i next hround
    obtain ⟨call, hcall, hround⟩ := Option.bind_eq_some_iff.mp hround
    obtain ⟨hlock, hnot, hsame⟩ := roundOf_locks hround
    have hflag := (RaftNode.roundStart_stands p.node).flag
    simp only at ht
    split at ht <;> cases ht
    · exact h.aborts hcall hlock rfl rfl hnot hflag
    · exact h.goesOn hcall hlock rfl le_rfl rfl
        ((hflag.trans (h.flag_eq hcall hlock)).trans (hsame _).symm)
  · cases ht

theorem submitTask_locks (h : LockSound p) (ht : p.submitTask i f = some t) :
    LockSound t.process := by
  unfold Process.submitTask at ht
  split at ht
  · rename_i round next hround
    obtain ⟨call, hcall, hround⟩ := Option.bind_eq_some_iff.mp hround
    obtain ⟨hlock, hnot, hsame⟩ := roundOf_locks hround
    have hflag := (h.flag_eq hcall hlock)
    split at ht
    · cases ht
    split at ht <;> cases ht
    · exact h.aborts hcall hlock rfl rfl hnot rfl
    · exact h.goesOn hcall hlock rfl (Nat.le_succ _) rfl (hflag.trans (hsame _).symm)
    · exact h.goesOn hcall hlock rfl le_rfl rfl (hflag.trans (hsame _).symm)
    · exact h.goesOn hcall hlock rfl (Nat.le_succ _) rfl (hflag.trans (hsame _).symm)
  · cases ht

theorem collectTask_locks (h : LockSound p) (ht : p.collectTask i f = some t) :
    LockSound t.process := by
  unfold Process.collectTask at ht
  split at ht
  · rename_i round next task result hround hfuture
    obtain ⟨call, hcall, hround⟩ := Option.bind_eq_some_iff.mp hround
    obtain ⟨hlock, hnot, hsame⟩ := roundOf_locks hround
    have hflag := (h.flag_eq hcall hlock)
    split at ht
    · cases ht
    split at ht <;> cases ht
    · exact h.aborts hcall hlock rfl rfl hnot rfl
    · exact h.goesOn hcall hlock rfl le_rfl rfl (hflag.trans (hsame _).symm)
  · cases ht

theorem finishRound_locks (h : LockSound p) {next : Nat} (ht : p.finishRound i next = some t) :
    LockSound t.process := by
  unfold Process.finishRound at ht
  split at ht
  · rename_i entries round hcall
    have hflag := (RaftNode.replicateLogFinish_stands p.node).flag.trans (h.flag_eq hcall rfl)
    simp only at ht
    split at ht
    · cases ht
      exact h.ends hcall rfl rfl rfl hflag
    · split at ht <;> cases ht
      · exact h.ends hcall rfl rfl rfl hflag
      · exact h.lets hcall rfl rfl rfl rfl hflag
  · rename_i written round hcall
    cases ht
    exact h.ends hcall rfl rfl rfl (h.flag_eq hcall rfl)
  · rename_i targetId term round hcall
    have hflag := (RaftNode.transferSelect_stands targetId term round.results p.node).flag.trans
      (h.flag_eq hcall rfl)
    simp only at ht
    split at ht <;> cases ht
    · exact h.goesOn hcall rfl rfl le_rfl rfl hflag
    · exact h.ends hcall rfl rfl rfl rfl
  · cases ht

theorem confirmPoll_locks (h : LockSound p) (ht : p.confirmPoll i f = some t) :
    LockSound t.process := by
  unfold Process.confirmPoll at ht
  split at ht
  · rename_i key acked b hcall
    have hflag := h.flag_eq hcall rfl
    split at ht
    · cases ht
    split at ht
    · cases ht
      exact h.ends hcall rfl rfl rfl hflag
    · split at ht <;> cases ht
      · exact h.goesOn hcall rfl rfl le_rfl rfl hflag
      · exact h.goesOn hcall rfl rfl (Nat.le_succ _) rfl hflag
    · cases ht
      exact h
    · cases ht
      exact h.goesOn hcall rfl rfl (Nat.le_succ _) rfl hflag
  · cases ht

/-- **Every turn keeps the lock and the flag in step.** -/
theorem LockSound.turn (h : LockSound p) (ht : p.turn c v op = some t) : LockSound t.process := by
  rcases op with timeout | j | ⟨j, timeout⟩ | _ | f | ⟨f, j⟩ | f | commands | _ | _ | i | i |
    ⟨i, f⟩ | ⟨i, f⟩ | i | i | key | i | ⟨i, f⟩ | i | i | targetId | ⟨i, j⟩ | i
  · simp only [Process.turn] at ht
    split at ht <;> cases ht
    exact h.still rfl le_rfl rfl (RaftNode.tickStart_stands _ p.node).flag
  · simp only [Process.turn] at ht
    split at ht
    · split at ht
      · split at ht <;> cases ht
        exact h.still rfl le_rfl rfl (RaftNode.tickResponse_stands _ _ _ p.node).flag
      · cases ht
    · cases ht
  · simp only [Process.turn] at ht
    split at ht
    · rename_i rpc hrpc
      split at ht <;> cases ht
      have hflag := RaftNode.deliver_flag p ⟨c.now, timeout⟩ j rpc.request
      rcases rpc with ⟨source, target, r | r | r | r⟩ <;> exact h.still rfl le_rfl rfl hflag
    · cases ht
  · cases ht
    exact h.still rfl le_rfl rfl (RaftNode.createSnapshot_flag p.node)
  · have hflag := (RaftNode.replicateBuild_stands f p.node).flag
    simp only [Process.turn, Process.workerBuild] at ht
    split at ht
    · split at ht <;> cases ht <;> exact h.still rfl le_rfl rfl hflag
    · cases ht
  · obtain ⟨answer, -, ht⟩ := Option.bind_eq_some_iff.mp ht
    unfold Process.workerAnswer at ht
    split at ht
    · split at ht <;> cases ht
      exact h.still rfl le_rfl rfl (RaftNode.replicateResponse_stands _ _ _ _ p.node).flag
    · cases ht
  · simp only [Process.turn, Process.workerFail] at ht
    split at ht <;> cases ht
    exact h.still rfl le_rfl rfl rfl
  · have hflag := RaftNode.submitStart_flag commands p.node
    simp only [Process.turn] at ht
    split at ht <;> cases ht
    · exact h.begun rfl rfl rfl rfl hflag
    · exact h.still rfl le_rfl rfl hflag
  · cases ht
    exact h.begun rfl rfl rfl rfl rfl
  · cases ht
    exact h.begun rfl rfl rfl rfl rfl
  · exact lockReplication_locks h ht
  · exact beginRound_locks h ht
  · exact submitTask_locks h ht
  · exact collectTask_locks h ht
  · exact finishRound_locks h ht
  · simp only [Process.turn, Process.submitResults] at ht
    split at ht
    · rename_i entries hcall
      have hflag := (RaftNode.submitResults_stands entries p.node).flag
      split at ht
      · cases ht
        exact h.endsAside hcall rfl rfl rfl rfl hflag
      · cases ht
        simp only
        split
        · exact h.endsAside hcall rfl rfl rfl rfl hflag
        · exact h.goesAside hcall rfl rfl rfl rfl rfl hflag
    · cases ht
  · have hflag := (RaftNode.getStart_stands key c.now p.node).flag
    simp only [Process.turn] at ht
    split at ht <;> cases ht
    · exact h.begun rfl rfl rfl rfl hflag
    · exact h.still rfl le_rfl rfl hflag
  · simp only [Process.turn, Process.confirmStart] at ht
    split at ht
    · rename_i key acked hcall
      split at ht
      · cases ht
      rename_i hfree
      have hfree := not_not.mp hfree
      have hflag := (RaftNode.confirmStart_stands p.node).flag.trans (h.flag_free hfree)
      split at ht <;> cases ht
      · exact h.takes none hcall hfree rfl rfl (by simp) hflag
      · exact h.takes (some _) hcall hfree rfl rfl (fun _ => rfl) hflag
    · cases ht
  · exact confirmPoll_locks h ht
  · simp only [Process.turn, Process.confirmFinish] at ht
    split at ht
    · rename_i key acked b hcall
      have hflag := (RaftNode.confirmFinish_stands b.readTerm b.confirmed c.now p.node).flag.trans
        (h.flag_eq hcall rfl)
      split at ht <;> cases ht
      · exact h.ends hcall rfl rfl rfl hflag
      · exact h.lets hcall rfl rfl rfl rfl hflag
    · cases ht
  · simp only [Process.turn] at ht
    split at ht <;> cases ht
    rename_i key acked readTerm hcall
    exact h.endsAside hcall rfl rfl rfl rfl (RaftNode.getFinish_stands key c.now p.node).flag
  · cases ht
    exact h.begun rfl rfl rfl rfl rfl
  · obtain ⟨answer, -, ht⟩ := Option.bind_eq_some_iff.mp ht
    unfold Process.transferAnswer at ht
    split at ht
    · rename_i term rpc response hcall hresponse
      split at ht <;> cases ht
      exact h.ends hcall rfl rfl rfl rfl
    · cases ht
  · simp only [Process.turn] at ht
    split at ht <;> cases ht
    rename_i term rpc hcall
    exact h.ends hcall rfl rfl rfl rfl

end Turns

/-! ## 3. Runs -/

/-- A node starts with the flag down. -/
theorem init_flag {v : NodeId} {m : Members} {d : DataDir} {clock : Clock} {n : RaftNode}
    (hinit : (RaftNode.init v m d clock).result = .ok n) :
    n.leadershipTransferInProgress = false := by
  unfold RaftNode.init at hinit
  split at hinit
  · cases hinit
  simp only at hinit
  repeat' split at hinit
  all_goals first
    | (cases hinit; rfl)
    | cases hinit

/-- A process that has just started. -/
theorem LockSound.started {n : RaftNode} (hflag : n.leadershipTransferInProgress = false) :
    LockSound { node := n } where
  fresh hcall := nomatch hcall
  holder hcall := nomatch hcall
  flag := by
    rw [hflag]
    exact ⟨fun h => (nomatch h), fun ⟨_, _, hcall, _⟩ => (nomatch hcall)⟩

/-- Every running process keeps the lock and the flag in step. -/
def Cluster.Locked (c : Cluster) : Prop := ∀ v p, c.process v = some p → LockSound p

theorem Cluster.Locked.down {c : Cluster} (h : c.Locked) (v : NodeId) (ws : List Write) :
    (c.down v ws).Locked := by
  intro u p hp
  by_cases hu : u = v
  · subst hu
    rw [Cluster.down_process_self] at hp
    cases hp
  · rw [Cluster.down_process_of_ne _ _ hu] at hp
    exact h u p hp

theorem Cluster.Step.locked {c c' : Cluster} (hs : Cluster.Step c c') (h : c.Locked) :
    c'.Locked := by
  obtain ⟨a, hs⟩ := hs
  rcases a with ms | ⟨v, timeout⟩ | ⟨v, timeout, effects⟩ | ⟨v, op⟩ | ⟨v, op, effects⟩
  · cases hs
    exact h
  · simp only [Cluster.step] at hs
    split at hs
    · cases hs
    split at hs
    · split at hs
      · cases hs
        exact h.down v _
      · rename_i n hrun
        cases hs
        intro u p hp
        have hp : Function.update c.process v (some ({ node := n } : Process)) u = some p := hp
        by_cases hu : u = v
        · subst hu
          rw [Function.update_self] at hp
          cases hp
          exact .started (init_flag hrun)
        · rw [Function.update_of_ne hu] at hp
          exact h u p hp
    · cases hs
  · simp only [Cluster.step] at hs
    split at hs <;> cases hs
    exact h.down v _
  · simp only [Cluster.step] at hs
    split at hs
    · cases hs
    rename_i p hp
    obtain ⟨t, ht, rfl⟩ := Option.map_eq_some_iff.mp hs
    intro u q hq
    by_cases hu : u = v
    · subst hu
      rw [Cluster.finish_process_self] at hq
      cases hq
      exact (h u p hp).turn ht
    · rw [Cluster.finish_process_of_ne _ _ _ hu] at hq
      exact h u q hq
  · simp only [Cluster.step] at hs
    split at hs
    · cases hs
    obtain ⟨t, -, rfl⟩ := Option.map_eq_some_iff.mp hs
    exact h.down v (t.writes.take effects)

/-- **In every reachable state** the lock and the flag are in step. -/
theorem Cluster.Reachable.locked {m : Members} {c : Cluster} (hc : Cluster.Reachable m c) :
    c.Locked := by
  induction hc with
  | refl => exact fun _ _ hp => nomatch hp
  | tail _ hs ih => exact hs.locked ih

end PyRaftKv
