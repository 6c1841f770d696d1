/-
# Replication progress belongs to the current term

One node and everything that may be called on it: its turns run with any clock, any request that
reaches it and any answer its own requests get.  `Watch` adds what the source keeps nowhere: the
term in which the table was made, and the success answers that arrived.

`_initialize_leader_replication` makes a table only where there is none, so a table that outlives
its leadership is found again by the next one.  `tick` on a leader and `handle_timeout_now` end a
leadership and leave the table (`progress_carried_over`).  If no election is won while the table is
there, the table of a leader is always of the current term (`progress_current`).
-/
import PyRaftKv.Refinement.Inversion
import PyRaftKv.Refinement.Runs

namespace PyRaftKv

/-! ## 1. A node under watch -/

/-- The last index a request covers. -/
def ReplicationRequest.lastIndex : ReplicationRequest → Int
  | .appendEntries r => r.lastReplicated
  | .installSnapshot r => r.lastIncludedIndex

/-- A success answer that reached the worker of a follower, and the term it was received in. -/
structure Confirmation where
  follower : NodeId
  receivedIn : Int
  request : ReplicationRequest

/-- A process, the term its node's table was made in, and what its followers have confirmed. -/
structure Watch where
  process : Process
  madeIn : Option Int := none
  confirmations : List Confirmation := []

/-- The confirmation a turn receives, if it receives one. -/
def confirmation (p : Process) (c : Cluster) : Op → Option Confirmation
  | .workerAnswer f i =>
    match p.futures f, (c.answers[i]?).bind fun a => Process.replicationAnswer a.response with
    | some ⟨_, .waiting _ request⟩, some (_, true) =>
      some ⟨f, p.node.state.currentTerm, request⟩
    | _, _ => none
  | _ => none

/-- Whoever comes to lead, or to lead in another term, has no table. -/
def RaftNode.WinsWithoutTable (n n' : RaftNode) : Prop :=
  n'.state.role = .leader →
    n.state.role = .leader ∧ n'.state.currentTerm = n.state.currentTerm ∨
      n.replication.isNone = true

instance (n n' : RaftNode) : Decidable (n.WinsWithoutTable n') :=
  inferInstanceAs (Decidable (_ → _))

namespace Watch

/-- A table where there was none is made in the term the node is then in. -/
def madeAfter (w : Watch) (n' : RaftNode) : Option Int :=
  match w.process.node.replication, n'.replication with
  | _, none => none
  | none, some _ => some n'.state.currentTerm
  | some _, some _ => w.madeIn

def after (w : Watch) (c : Cluster) (op : Op) (t : Turn) : Watch where
  process := t.process
  madeIn := w.madeAfter t.process.node
  confirmations := w.confirmations ++ (confirmation w.process c op).toList

/-- A turn of the node.  Of `c` it reads the clock, the request that is delivered and the answer
that arrives. -/
def step (w : Watch) (c : Cluster) (op : Op) : Option Watch :=
  (w.process.turn c w.process.node.nodeId op).map (w.after c op)

/-- A node that has just started. -/
def Started (w : Watch) : Prop :=
  ∃ v m d clock n ws, RaftNode.init v m d clock = ⟨.ok n, ws⟩ ∧ w = { process := { node := n } }

/-- The table of a leader was made in its current term, refers to its log object, and every match
index in it was confirmed in its current term. -/
def Current (w : Watch) : Prop :=
  w.process.node.state.role = .leader → ∀ r, w.process.node.replication = some r →
    w.madeIn = some w.process.node.state.currentTerm ∧
      r.logObject = w.process.node.logObject ∧
      ∀ f, r.matchIndex f ≠ 0 → ∃ k ∈ w.confirmations, k.follower = f ∧
        k.receivedIn = w.process.node.state.currentTerm ∧
        k.request.term = w.process.node.state.currentTerm ∧
        k.request.lastIndex = r.matchIndex f

/-- Steps of a run. -/
def Step (w w' : Watch) : Prop := ∃ c op, w.step c op = some w'

/-- Steps of a run in which no election is won while the table is there. -/
def CleanStep (w w' : Watch) : Prop :=
  w.Step w' ∧ w.process.node.WinsWithoutTable w'.process.node

end Watch

/-! ## 2. What a stretch does to the table -/

/-- A table that refers to the node's log object goes on to do so, and its match indexes are those
the table had, or all zero. -/
structure Tends (n n' : RaftNode) : Prop where
  refers : (∀ r, n.replication = some r → r.logObject = n.logObject) →
    ∀ r', n'.replication = some r' → r'.logObject = n'.logObject
  matched : ∀ r', n'.replication = some r' → (∀ f, r'.matchIndex f = 0) ∨
    ∃ r, n.replication = some r ∧ r'.matchIndex = r.matchIndex

namespace Tends

variable {n n' n'' : RaftNode}

theorem of_eq (hr : n'.replication = n.replication) (hl : n'.logObject = n.logObject) :
    Tends n n' := by
  constructor
  · intro h r' hr'
    rw [hl]
    exact h r' (hr ▸ hr')
  · exact fun r' hr' => Or.inr ⟨r', hr ▸ hr', rfl⟩

theorem of_none (hr : n'.replication = none) : Tends n n' := by
  constructor
  · intro _ r' hr'
    rw [hr] at hr'
    cases hr'
  · intro r' hr'
    rw [hr] at hr'
    cases hr'

theorem refl (n : RaftNode) : Tends n n := .of_eq rfl rfl

theorem trans (h : Tends n n') (h' : Tends n' n'') : Tends n n'' := by
  refine ⟨fun hn => h'.refers (h.refers hn), fun r'' hr'' => ?_⟩
  rcases h'.matched r'' hr'' with hzero | ⟨r', hr', heq'⟩
  · exact Or.inl hzero
  · rw [heq']
    exact h.matched r' hr'

end Tends

instance : Std.Refl Tends := ⟨Tends.refl⟩
instance : IsTrans RaftNode Tends := ⟨fun _ _ _ => Tends.trans⟩

/-- A stretch that `Tends`, wherever it starts. -/
abbrev NodeM.Tending {α : Type} (m : NodeM α) : Prop := Keeping Tends m

/-! ## 3. The stretches -/

namespace RaftNode

open NodeM (Keeping Tending)

section Persisting

variable {R : RaftNode → RaftNode → Prop} [Std.Refl R] [IsTrans RaftNode R]

theorem persistState_keeps : Keeping R persistState := .bind .get fun _ => .persist _

theorem persistTerm_keeps (previousTerm : Int) : Keeping R (persistTerm previousTerm) :=
  .bind .get fun _ => .ite persistState_keeps (.pure ())

end Persisting

theorem applyCommitted_tends : Tending applyCommitted := fun _ => .of_eq rfl rfl

theorem becomeFollower_tends (term : Int) (leaderId : Option NodeId) :
    Tending (becomeFollower term leaderId) :=
  .bind .get fun _ => .bind (.lift _) fun _ => .modify fun _ => .of_eq rfl rfl

theorem drop_tends (n : RaftNode) : Tends n { n with replication := none } := .of_none rfl

theorem dropReplication_tends (n : RaftNode) : Tends n n.dropReplication := by
  unfold dropReplication
  split
  · exact drop_tends n
  · exact .refl n

/-- A new table refers to the node's log object and knows of no match. -/
theorem initializeLeaderReplication_tends : Tending initializeLeaderReplication := by
  intro n
  unfold initializeLeaderReplication LeaderReplication.new
  simp only [NodeM.bind_run, NodeM.get_run, NodeM.andThen_ok, NodeM.behind_nil, NodeM.ite_run]
  split
  · exact drop_tends n
  rename_i hlead
  split
  · split
    · exact .refl n
    · refine ⟨fun _ r' hr' => ?_, fun r' hr' => Or.inl ?_⟩
      · obtain rfl := Option.some.inj hr'
        rfl
      · obtain rfl := Option.some.inj hr'
        exact fun _ => rfl
  · exact .refl n

/-- The table is given the new log object. -/
theorem compacted_tends (n : RaftNode) (snapshot : RaftSnapshot) (log : RaftLog) :
    Tends n (n.compacted snapshot log) := by
  constructor
  · intro _ r' hr'
    obtain ⟨r, -, rfl⟩ := Option.map_eq_some_iff.mp hr'
    rfl
  · intro r' hr'
    obtain ⟨r, hr, rfl⟩ := Option.map_eq_some_iff.mp hr'
    exact Or.inr ⟨r, hr, rfl⟩

theorem createSnapshot_tends : Tending createSnapshot := by
  refine .bind .get fun n => .ite (.pure _) ?_
  split
  · exact .raise _
  · refine .bind (.lift _) fun _ => .bind (.persist _) fun _ => .bind (.lift _) fun _ => ?_
    refine .bind (.lift _) fun _ => .bind (.persist _) fun _ => .bind persistState_keeps fun _ => ?_
    exact .bind (.modify fun n => compacted_tends n _ _) fun _ => .pure _

theorem replicateBuild_tends (f : NodeId) : Tending (replicateBuild f) := by
  refine .bind .get fun n => .ite (.pure _) ?_
  split
  · exact .pure _
  · refine .ite (.ite (.raise _) (.pure _)) ?_
    exact .bind (.lift _) fun _ => .pure _

theorem replicateLogStart_tends : Tending replicateLogStart :=
  .bind .get fun _ => .ite (.raise _) <| .bind initializeLeaderReplication_tends fun _ =>
    .bind .get fun _ => .ite (.raise _) (.pure _)

theorem roundStart_tends : Tending roundStart :=
  .bind .get fun _ => .ite (.pure _) <| .bind initializeLeaderReplication_tends fun _ =>
    .bind .get fun _ => .pure _

theorem replicateLogFinish_tends : Tending replicateLogFinish := by
  refine .bind .get fun n => ?_
  split
  · exact .pure _
  · refine .ite (.pure _) ?_
    refine .bind (.modify fun n => .of_eq rfl rfl) fun _ => ?_
    exact .ite (.bind persistState_keeps fun _ => applyCommitted_tends) (.pure _)

theorem submitStart_tends (commands : List RaftCommand) : Tending (submitStart commands) := by
  refine .bind .get fun n => .ite (.pure _) <| .ite (.raise _) <| .ite (.raise _) ?_
  refine .bind (.lift _) fun _ => .bind (.lift _) fun _ => ?_
  refine .bind (.modify fun n => .of_eq rfl rfl) fun _ => ?_
  exact .bind (.persist _) fun _ => .bind initializeLeaderReplication_tends fun _ => .pure _

theorem submitResults_tends (es : List LogEntry) : Tending (submitResults es) :=
  .bind .get fun _ => .ite (.pure _) (.pure _)

theorem getStart_tends (key : String) (now : Nat) : Tending (getStart key now) :=
  .bind .get fun _ => .ite (.raise _) <| .ite
    (.bind applyCommitted_tends fun _ => .bind .get fun _ => .pure _) (.pure _)

theorem confirmStart_tends : Tending confirmStart := by
  refine .bind .get fun n => .ite (.raise _) <| .bind initializeLeaderReplication_tends fun _ => ?_
  refine .bind .get fun _ => ?_
  split
  · exact .raise _
  · exact .pure _

theorem confirmFinish_tends (readTerm : Int) (confirmed : List NodeId) (now : Nat) :
    Tending (confirmFinish readTerm confirmed now) :=
  .bind .get fun _ => .ite (.raise _) <| .ite (.raise _) <|
    .bind (.modify fun _ => .of_eq rfl rfl) fun _ => applyCommitted_tends

theorem getFinish_tends (key : String) (now : Nat) : Tending (getFinish key now) :=
  .bind .get fun _ => .ite (.raise _) (.pure _)

theorem transferStart_tends (targetId : Option NodeId) : Tending (transferStart targetId) := by
  have hflag : Tending (NodeM.modify fun n => { n with leadershipTransferInProgress := true }) :=
    .modify fun n => .of_eq rfl rfl
  refine .bind .get fun n => .ite (.raise _) <| .bind initializeLeaderReplication_tends fun _ => ?_
  refine .bind .get fun _ => ?_
  split
  · exact .pure _
  · split
    · exact .ite (.raise _) (.bind hflag fun _ => .pure _)
    · exact .bind hflag fun _ => .pure _

theorem transferSelect_tends (targetId : Option NodeId) (term : Int)
    (results : NodeId → Option Bool) : Tending (transferSelect targetId term results) := by
  refine .bind .get fun _ => ?_
  split
  · exact .pure _
  · exact .ite (.pure _) (.pure _)

theorem transferResponse_tends (term : Int) (response : TimeoutNowResponse) :
    Tending (transferResponse term response) := by
  refine .bind .get fun _ => .ite (.pure _) <| .ite ?_ <| .ite (.pure _) ?_
  · exact .bind (becomeFollower_tends _ _) fun _ => .bind persistState_keeps fun _ =>
      .bind (.modify drop_tends) fun _ => .pure _
  · exact .bind (becomeFollower_tends _ _) fun _ => .bind (.modify drop_tends) fun _ => .pure _

theorem transferEnd_tends : Tending transferEnd :=
  .modify fun _ => .of_eq rfl rfl

theorem handleTimeoutNow_tends (request : TimeoutNowRequest) :
    Tending (handleTimeoutNow request) := by
  refine .bind .get fun n => .ite (.pure _) ?_
  refine .ite (.bind (becomeFollower_tends _ _) fun _ => ?_) ?_
  all_goals
    refine .bind .get fun _ => .bind (persistTerm_keeps _) fun _ => ?_
    refine .ite (.bind (.modify fun _ => ?_) fun _ => .pure _) (.pure _)
    exact .of_eq rfl rfl

/-- Two nodes with one table. -/
def SameTable (n n' : RaftNode) : Prop := n'.replication = n.replication

instance : Std.Refl SameTable := ⟨fun _ => rfl⟩
instance : IsTrans RaftNode SameTable := ⟨fun _ _ _ h h' => Eq.trans h' h⟩

/-- What goes on once the table is dropped may replace the log. -/
theorem dropped_tends {α : Type} {f : Unit → NodeM α} (hf : ∀ u, Keeping SameTable (f u)) :
    Tending ((NodeM.modify fun n => { n with replication := none }) >>= f) := by
  intro n
  have hrest := hf () { n with replication := none }
  rw [NodeM.bind_run, NodeM.modify_run, NodeM.andThen_ok, NodeM.behind_nil]
  exact .of_none hrest

theorem handleInstallSnapshot_tends (clock : Clock) (request : InstallSnapshotRequest) :
    Tending (handleInstallSnapshot clock request) := by
  have htimer : Keeping SameTable (NodeM.modify fun n => { n with
      timer := .reset clock.now clock.timeout }) := .modify fun _ => rfl
  refine .bind .get fun n => .ite (.pure _) <| .bind (becomeFollower_tends _ _) fun _ =>
    dropped_tends fun _ => ?_
  refine .bind .get fun n => ?_
  refine .ite (.bind (persistTerm_keeps _) fun _ => .pure _) <| .ite
    (.bind (persistTerm_keeps _) fun _ => .bind htimer fun _ => .pure _) <| .ite
    (.bind (persistTerm_keeps _) fun _ => .pure _) ?_
  refine .bind (.lift _) fun _ => .bind (.lift _) fun _ => ?_
  split
  · exact .bind (persistTerm_keeps _) fun _ => .pure _
  · refine .ite (.bind (persistTerm_keeps _) fun _ => .pure _) ?_
    refine .bind (.persist _) fun _ => .bind (.persist _) fun _ => ?_
    refine .bind (.modify fun _ => rfl) fun _ => .bind (fun _ => rfl) fun _ => ?_
    exact .bind persistState_keeps fun _ => .bind htimer fun _ => .pure _

theorem handleRequestVote_tends (clock : Clock) (request : RequestVoteRequest) :
    Tending (handleRequestVote clock request) := by
  refine .bind .get fun n => .bind (.lift _) fun answered => ?_
  obtain ⟨response, state⟩ := answered
  have hdrop : Tending (do NodeM.modify dropReplication; return response) :=
    .bind (.modify dropReplication_tends) fun _ => .pure _
  refine .bind (.modify fun _ => .of_eq rfl rfl) fun _ => .bind persistState_keeps fun _ => ?_
  exact .ite (.bind (.modify fun _ => .of_eq rfl rfl) fun _ => hdrop) hdrop

theorem persistLogChange_tends (before after : List LogEntry) :
    Tending (persistLogChange before after) := by
  unfold persistLogChange
  refine .ite (.pure _) ?_
  simp only
  split
  · exact .persist _
  · exact .bind (.lift _) fun _ => .persist _

theorem handleAppendEntries_tends (clock : Clock) (request : AppendEntriesRequest) :
    Tending (handleAppendEntries clock request) := by
  refine .bind .get fun n => ?_
  rcases PyRaftKv.handleAppendEntries n.state n.log request n.store with
    ⟨result, state, log, store⟩
  refine .bind (.modify fun _ => .of_eq rfl rfl) fun _ => .bind (.lift result) fun response => ?_
  refine .bind (persistLogChange_tends _ _) fun _ => ?_
  have hdrop : Tending (do NodeM.modify dropReplication; return response) :=
    .bind (.modify dropReplication_tends) fun _ => .pure _
  have hend : Tending (do
      if response.success then
        NodeM.modify fun n => { n with timer := .reset clock.now clock.timeout }
      NodeM.modify dropReplication
      return response) :=
    .ite (.bind (.modify fun _ => .of_eq rfl rfl) fun _ => hdrop) hdrop
  exact .ite (.bind persistState_keeps fun _ => hend) hend

theorem tickStart_tends (clock : Clock) : Tending (tickStart clock) := by
  refine .bind .get fun n => .bind (.lift _) fun started => ?_
  obtain ⟨requests, state, timer, election⟩ := started
  have hlead : Tending (if state.role = .leader then (do initializeLeaderReplication; return none)
      else pure requests : NodeM (Option RequestVoteRequest)) :=
    .ite (.bind initializeLeaderReplication_tends fun _ => .pure _) (.pure _)
  refine .bind (.modify fun _ => .of_eq rfl rfl) fun _ => ?_
  exact .ite (.bind persistState_keeps fun _ => hlead) hlead

theorem tickResponse_tends (peerId : NodeId) (request : RequestVoteRequest)
    (response : RequestVoteResponse) : Tending (tickResponse peerId request response) := by
  refine .bind .get fun n => .ite (.pure _) <| .bind (.lift _) fun recorded => ?_
  obtain ⟨won, election, state⟩ := recorded
  have hrole : Tending (if state.role = .leader then initializeLeaderReplication
      else if state.role = .follower then NodeM.modify fun n => { n with replication := none }
      else pure () : NodeM Unit) :=
    .ite initializeLeaderReplication_tends (.ite (.modify drop_tends) (.pure _))
  refine .bind (.modify fun _ => .of_eq rfl rfl) fun _ => ?_
  exact .ite (.bind persistState_keeps fun _ => hrole) hrole

/-! ## 4. Answers -/

/-- What an answer leaves of the table: what it had, and what the answer confirms. -/
structure Confirmed (r r' : LeaderReplication) (f : NodeId) (request : ReplicationRequest)
    (success : Bool) : Prop where
  logObject : r'.logObject = r.logObject
  matched : ∀ g, r'.matchIndex g = r.matchIndex g ∨
    g = f ∧ success = true ∧ r'.matchIndex g = request.lastIndex

theorem Confirmed.advance (r : LeaderReplication) (f : NodeId) (request : ReplicationRequest) :
    Confirmed r (r.advance f request.lastIndex) f request true := by
  refine ⟨rfl, fun g => ?_⟩
  by_cases hg : g = f
  · subst hg
    have hmatch : (r.advance g request.lastIndex).matchIndex g =
        max (r.matchIndex g) request.lastIndex := Function.update_self _ _ _
    rcases max_choice (r.matchIndex g) request.lastIndex with hmax | hmax
    · exact Or.inl (hmatch.trans hmax)
    · exact Or.inr ⟨rfl, rfl, hmatch.trans hmax⟩
  · exact Or.inl (Function.update_of_ne hg _ _)

/-- **An answer changes the table only in the term its request was sent in.** -/
theorem replicateResponse_tends (f : NodeId) (request : ReplicationRequest) (term : Int)
    (success : Bool) (n : RaftNode) :
    Tends n (replicateResponse f request term success n).node ∨
      n.state.role = .leader ∧ request.term = n.state.currentTerm ∧ ∃ r r',
        n.replication = some r ∧ Confirmed r r' f request success ∧
        (replicateResponse f request term success n).node = { n with replication := some r' } := by
  unfold replicateResponse
  simp only [NodeM.bind_run, NodeM.get_run, NodeM.andThen_ok, NodeM.behind_nil]
  rcases hr : n.replication with _ | r
  · exact Or.inl (.refl n)
  simp only [NodeM.ite_run]
  split
  · exact Or.inl (.refl n)
  rename_i hlead
  rw [not_or, not_not, not_not] at hlead
  split
  · exact Or.inl ((Keeping.bind (R := Tends) (becomeFollower_tends _ _) fun _ =>
      .bind persistState_keeps fun _ => .bind (.modify drop_tends) fun _ => .pure _) n)
  rcases request with appendRequest | snapshotRequest
  · simp only
    split
    · rename_i hsuccess
      unfold LeaderReplication.recordSuccess
      split
      · exact Or.inl (.refl n)
      · refine Or.inr ⟨hlead.1, hlead.2.symm, r, _, rfl, ?_, rfl⟩
        rw [hsuccess]
        exact .advance r f (.appendEntries appendRequest)
    · unfold LeaderReplication.recordFailure
      split
      · exact Or.inl (.refl n)
      · exact Or.inr ⟨hlead.1, hlead.2.symm, r,
          ⟨r.followers, Function.update r.nextIndex f (max 1 (r.nextIndex f - 1)), r.matchIndex,
            r.logObject⟩,
          rfl, ⟨rfl, fun _ => Or.inl rfl⟩, rfl⟩
  · simp only
    split
    · exact Or.inl (.refl n)
    · rename_i hsuccess
      unfold LeaderReplication.recordSnapshotSuccess
      split
      · exact Or.inl (.refl n)
      · refine Or.inr ⟨hlead.1, hlead.2.symm, r, _, rfl, ?_, rfl⟩
        obtain rfl : success = true := by simpa using hsuccess
        exact .advance r f (.installSnapshot snapshotRequest)

end RaftNode

/-! ## 5. Turns and runs -/

/-- What a turn leaves of the table. -/
theorem turn_cases {p : Process} {c : Cluster} {v : NodeId} {op : Op} {t : Turn}
    (ht : p.turn c v op = some t) :
    Tends p.node t.process.node ∨
      ∃ f i answer id request term success r r', op = .workerAnswer f i ∧
        c.answers[i]? = some answer ∧
        Process.replicationAnswer answer.response = some (term, success) ∧
        p.futures f = some ⟨id, .waiting answer.rpc request⟩ ∧
        p.node.state.role = .leader ∧ request.term = p.node.state.currentTerm ∧
        p.node.replication = some r ∧ RaftNode.Confirmed r r' f request success ∧
        t.process.node = { p.node with replication := some r' } := by
  have h := turn_stretch ht
  generalize t.process.node = n' at h ⊢
  cases h with
  | tickStart => exact Or.inl (RaftNode.tickStart_tends _ _)
  | tickResponse => exact Or.inl (RaftNode.tickResponse_tends _ _ _ _)
  | replicateResponse hans hreply hfuture =>
    rename_i f i id answer request term success
    rcases RaftNode.replicateResponse_tends f request term success p.node with
      h | ⟨hlead, hterm, r, r', hr, hconf, hnode⟩
    · exact Or.inl h
    · exact Or.inr ⟨f, i, answer, id, request, term, success, r, r', rfl, hans, hreply, hfuture,
        hlead, hterm, hr, hconf, hnode⟩
  | requestVote hrpc => exact Or.inl (RaftNode.handleRequestVote_tends _ _ _)
  | appendEntries hrpc => exact Or.inl (RaftNode.handleAppendEntries_tends _ _ _)
  | installSnapshot hrpc => exact Or.inl (RaftNode.handleInstallSnapshot_tends _ _ _)
  | timeoutNow hrpc => exact Or.inl (RaftNode.handleTimeoutNow_tends _ _)
  | createSnapshot => exact Or.inl (RaftNode.createSnapshot_tends _)
  | replicateBuild => exact Or.inl (RaftNode.replicateBuild_tends _ _)
  | submitStart => exact Or.inl (RaftNode.submitStart_tends _ _)
  | replicateLogStart => exact Or.inl (RaftNode.replicateLogStart_tends _)
  | transferStart => exact Or.inl (RaftNode.transferStart_tends _ _)
  | roundStart => exact Or.inl (RaftNode.roundStart_tends _)
  | replicateLogFinish => exact Or.inl (RaftNode.replicateLogFinish_tends _)
  | transferSelect => exact Or.inl (RaftNode.transferSelect_tends _ _ _ _)
  | transferMiss =>
    exact Or.inl ((RaftNode.transferSelect_tends _ _ _ _).trans (RaftNode.transferEnd_tends _))
  | submitResults => exact Or.inl (RaftNode.submitResults_tends _ _)
  | getStart => exact Or.inl (RaftNode.getStart_tends _ _ _)
  | confirmStart => exact Or.inl (RaftNode.confirmStart_tends _)
  | confirmFinish => exact Or.inl (RaftNode.confirmFinish_tends _ _ _ _)
  | getFinish => exact Or.inl (RaftNode.getFinish_tends _ _ _)
  | transferResponse =>
    exact Or.inl ((RaftNode.transferResponse_tends _ _ _).trans (RaftNode.transferEnd_tends _))
  | transferFail => exact Or.inl (RaftNode.transferEnd_tends _)
  | roundRaise =>
    exact Or.inl ((RaftNode.roundStart_tends _).trans (RaftNode.transferEnd_tends _))
  | same => exact Or.inl (.refl _)

namespace Watch

/-- What holds of a node under watch, in a run in which no election is won with a table there. -/
structure Sound (w : Watch) : Prop where
  refers : ∀ r, w.process.node.replication = some r → r.logObject = w.process.node.logObject
  current : w.Current

section Sound

variable {w w' : Watch} {c : Cluster} {op : Op} {t : Turn}

/-- The table a node keeps was made when it was made. -/
theorem madeAfter_kept {n' : RaftNode} {r r' : LeaderReplication}
    (hr : w.process.node.replication = some r) (hr' : n'.replication = some r') :
    w.madeAfter n' = w.madeIn := by
  unfold madeAfter
  rw [hr, hr']

/-- The table a node has made is of its term. -/
theorem madeAfter_made {n' : RaftNode} {r' : LeaderReplication}
    (hr : w.process.node.replication = none) (hr' : n'.replication = some r') :
    w.madeAfter n' = some n'.state.currentTerm := by
  unfold madeAfter
  rw [hr, hr']

theorem Sound.tend (hs : w.Sound) (hwins : w.process.node.WinsWithoutTable t.process.node)
    (h : Tends w.process.node t.process.node) : (w.after c op t).Sound := by
  refine ⟨h.refers hs.refers, ?_⟩
  intro (hlead : t.process.node.state.role = .leader) r'
    (hr' : t.process.node.replication = some r')
  rcases hr : w.process.node.replication with _ | r
  · -- the node has just made its table
    refine ⟨madeAfter_made hr hr', h.refers hs.refers r' hr', fun f hf => absurd ?_ hf⟩
    rcases h.matched r' hr' with hzero | ⟨r, hsome, -⟩
    · exact hzero f
    · rw [hr] at hsome
      cases hsome
  · -- it leads in the term it has led in
    obtain ⟨hrole, hterm⟩ : w.process.node.state.role = .leader ∧
        t.process.node.state.currentTerm = w.process.node.state.currentTerm := by
      rcases hwins hlead with hled | hnone
      · exact hled
      · rw [hr] at hnone
        cases hnone
    obtain ⟨hmade, -, hconf⟩ := hs.current hrole r hr
    refine ⟨?_, h.refers hs.refers r' hr', fun f hf => ?_⟩
    · change w.madeAfter t.process.node = some t.process.node.state.currentTerm
      rw [madeAfter_kept hr hr', hmade, hterm]
    · rcases h.matched r' hr' with hzero | ⟨r₀, hr₀, hsame⟩
      · exact absurd (hzero f) hf
      · obtain rfl : r₀ = r := Option.some.inj (hr₀.symm.trans hr)
        rw [hsame] at hf ⊢
        obtain ⟨k, hk, hfollower, hreceived, hsent, hindex⟩ := hconf f hf
        exact ⟨k, List.mem_append_left _ hk, hfollower, hreceived.trans hterm.symm,
          hsent.trans hterm.symm, hindex⟩

theorem Sound.step (hs : w.Sound) (hstep : w.CleanStep w') : w'.Sound := by
  obtain ⟨⟨c, op, hstep⟩, hwins⟩ := hstep
  obtain ⟨t, ht, rfl⟩ := Option.map_eq_some_iff.mp hstep
  rcases turn_cases ht with h |
    ⟨f, i, answer, id, request, term, success, r, r', rfl, hans, hreply, hfuture, hlead, hterm, hr,
      hconf, hnode⟩
  · exact hs.tend hwins h
  obtain ⟨hmade, hrefers, hmatch⟩ := hs.current hlead r hr
  have hrefers' : ∀ r'', t.process.node.replication = some r'' →
      r''.logObject = t.process.node.logObject := by
    rw [hnode]
    rintro r'' hr''
    obtain rfl := Option.some.inj hr''
    exact hconf.logObject.trans hrefers
  refine ⟨hrefers', fun _ r'' (hr'' : t.process.node.replication = some r'') => ?_⟩
  obtain rfl : r' = r'' := by
    rw [hnode] at hr''
    exact Option.some.inj hr''
  have hterm' : t.process.node.state.currentTerm = w.process.node.state.currentTerm := by
    rw [hnode]
  refine ⟨?_, hrefers' r' hr'', fun g hg => ?_⟩
  · change w.madeAfter t.process.node = some t.process.node.state.currentTerm
    rw [madeAfter_kept hr hr'', hmade, hterm']
  · rcases hconf.matched g with hsame | ⟨rfl, hsuccess, hindex⟩
    · obtain ⟨k, hk, hfollower, hreceived, hsent, hlast⟩ := hmatch g (hsame ▸ hg)
      exact ⟨k, List.mem_append_left _ hk, hfollower, hreceived.trans hterm'.symm,
        hsent.trans hterm'.symm, hlast.trans hsame.symm⟩
    · -- the index this answer confirms
      have hnew : confirmation w.process c (.workerAnswer g i) =
          some ⟨g, w.process.node.state.currentTerm, request⟩ := by
        simp only [confirmation, hans, hfuture, Option.bind_some, hreply, hsuccess]
      refine ⟨⟨g, w.process.node.state.currentTerm, request⟩, List.mem_append_right _ ?_, rfl,
        hterm'.symm, hterm.trans hterm'.symm, hindex.symm⟩
      rw [hnew]
      exact List.mem_singleton_self _

/-- A node starts without a table. -/
theorem Started.sound (hw : w.Started) : w.Sound := by
  obtain ⟨v, m, d, clock, n, ws, hinit, rfl⟩ := hw
  have hnone : n.replication = none := by
    unfold RaftNode.init at hinit
    split at hinit
    · cases hinit
    simp only at hinit
    repeat' split at hinit
    all_goals first
      | (cases hinit; rfl)
      | cases hinit
  constructor
  · intro r (hr : n.replication = some r)
    rw [hnone] at hr
    cases hr
  · intro _ r (hr : n.replication = some r)
    rw [hnone] at hr
    cases hr

end Sound

end Watch

/-- **Replication progress belongs to the current term**, in every run in which no election is won
while the table is there. -/
theorem progress_current {w w' : Watch} (hw : w.Started)
    (hrun : Relation.ReflTransGen Watch.CleanStep w w') : w'.Current := by
  have hsound : w'.Sound := by
    induction hrun with
    | refl => exact hw.sound
    | tail _ hstep ih => exact ih.step hstep
  exact hsound.current

/-! ## 6. A table that outlives its leadership -/

namespace Watch

/-- Running some turns, each of which `ok` allows. -/
def runs (ok : Watch → Watch → Bool) (w : Watch) : List (Cluster × Op) → Option Watch
  | [] => some w
  | (c, op) :: rest =>
    (w.step c op).bind fun w' => if ok w w' then runs ok w' rest else none

theorem runs_steps {ok : Watch → Watch → Bool} {R : Watch → Watch → Prop}
    (hok : ∀ {w w'}, ok w w' = true → w.Step w' → R w w') :
    ∀ {turns : List (Cluster × Op)} {w w' : Watch}, w.runs ok turns = some w' →
      Relation.ReflTransGen R w w'
  | [], w, w', h => by
    cases h
    exact .refl
  | (c, op) :: rest, w, w', h => by
    obtain ⟨w'', hstep, hrest⟩ := Option.bind_eq_some_iff.mp h
    split at hrest
    · rename_i hallowed
      exact .head (hok hallowed ⟨c, op, hstep⟩) (runs_steps hok hrest)
    · cases hrest

end Watch

/-- Member `a` of three, started on an empty data directory. -/
def freshNode : Option Watch :=
  match RaftNode.init "a" threeMembers {} ⟨0, 1500⟩ with
  | ⟨.ok n, _⟩ => some { process := { node := n } }
  | _ => none

/-- `a` is elected in term 1 and replicates one entry to `b`. -/
def firstTerm : List (Cluster × Op) := [
  ({ members := threeMembers, now := 1500 }, .tick 1500),
  ({ members := threeMembers, now := 1510, rpcs := [⟨"a", "b", .requestVote ⟨1, "a", 0, 0⟩⟩],
     answers := [⟨0, .requestVote ⟨1, true⟩⟩] }, .voteAnswer 0),
  ({ members := threeMembers, now := 1520 }, .submitCommands [⟨.put, "x", some "1"⟩]),
  ({ members := threeMembers, now := 1520 }, .lockReplication 0),
  ({ members := threeMembers, now := 1520 }, .beginRound 0),
  ({ members := threeMembers, now := 1520 }, .submitTask 0 "b"),
  ({ members := threeMembers, now := 1520 }, .workerBuild "b"),
  ({ members := threeMembers, now := 1530, answers := [⟨0, .appendEntries ⟨1, true⟩⟩] },
    .workerAnswer "b" 0)]

/-- The leader of term 2 tells `a` to stand for election, and `a` wins term 3. -/
def transferredTerm : List (Cluster × Op) := [
  ({ members := threeMembers, now := 1600, rpcs := [⟨"c", "a", .timeoutNow ⟨2, "c"⟩⟩] },
    .deliver 0 1500),
  ({ members := threeMembers, now := 1610 }, .tick 1500),
  ({ members := threeMembers, now := 1620, rpcs := [⟨"a", "b", .requestVote ⟨3, "a", 1, 1⟩⟩],
     answers := [⟨0, .requestVote ⟨3, true⟩⟩] }, .voteAnswer 0)]

/-- The last run, with what is left at its end: the role, the term, the term the table was made in,
and its match index for `b`. -/
theorem transferredTerm_runs :
    (freshNode.bind fun w => w.runs (fun _ _ => true) (firstTerm ++ transferredTerm)).map
      (fun w => (decide (w.process.node.state.role = .leader), w.process.node.state.currentTerm,
        w.madeIn, w.process.node.replication.map (·.matchIndex "b"))) =
      some (true, 3, some 1, some 1) := by decide +kernel

theorem freshNode_started {w : Watch} (h : freshNode = some w) : w.Started := by
  unfold freshNode at h
  split at h
  · rename_i n ws hinit
    cases h
    exact ⟨_, _, _, _, n, ws, hinit, rfl⟩
  · cases h

/-- **A table is carried over to a later term**: a leader of term 3 has the table that it made in
term 1, with a match index that nobody confirmed in term 3. -/
theorem progress_carried_over : ∃ w w', Watch.Started w ∧
    Relation.ReflTransGen Watch.Step w w' ∧ w'.process.node.state.role = .leader ∧
    w'.process.node.state.currentTerm = 3 ∧ w'.madeIn = some 1 ∧
    w'.process.node.replication.map (·.matchIndex "b") = some 1 ∧ ¬ w'.Current := by
  obtain ⟨w', hw', hend⟩ := Option.map_eq_some_iff.mp transferredTerm_runs
  obtain ⟨w, hw, hruns⟩ := Option.bind_eq_some_iff.mp hw'
  simp only [Prod.mk.injEq, decide_eq_true_eq] at hend
  obtain ⟨hlead, hterm, hmade, hmatch⟩ := hend
  refine ⟨w, w', freshNode_started hw, Watch.runs_steps (fun _ h => h) hruns, hlead, hterm,
    hmade, hmatch, fun hcurrent => ?_⟩
  obtain ⟨r, hr, -⟩ := Option.map_eq_some_iff.mp hmatch
  rw [(hcurrent hlead r hr).1, hterm] at hmade
  cases hmade

/-- The first term alone: the table is of that term, and `b` has confirmed entry 1 in it. -/
theorem progress_current_firstTerm : ∃ w w', Watch.Started w ∧
    Relation.ReflTransGen Watch.CleanStep w w' ∧ w'.process.node.state.role = .leader ∧
    w'.process.node.replication.map (·.matchIndex "b") = some 1 ∧ w'.Current := by
  have hrun : (freshNode.bind fun w =>
      w.runs (fun w w' => decide (w.process.node.WinsWithoutTable w'.process.node))
        firstTerm).map
        (fun w => (decide (w.process.node.state.role = .leader),
          w.process.node.replication.map (·.matchIndex "b"))) = some (true, some 1) := by
    decide +kernel
  obtain ⟨w', hw', hend⟩ := Option.map_eq_some_iff.mp hrun
  obtain ⟨w, hw, hruns⟩ := Option.bind_eq_some_iff.mp hw'
  simp only [Prod.mk.injEq, decide_eq_true_eq] at hend
  have hclean : Relation.ReflTransGen Watch.CleanStep w w' :=
    Watch.runs_steps (fun hok h => ⟨h, of_decide_eq_true hok⟩) hruns
  exact ⟨w, w', freshNode_started hw, hclean, hend.1, hend.2,
    progress_current (freshNode_started hw) hclean⟩

end PyRaftKv
