/-
# Handing leadership over

`transfer_leadership` picks a follower whose match index covers the leader's whole log and tells it
to stand for election.  From the check until the method returns
`_leadership_transfer_in_progress` keeps `submit_commands` out, so as long as the leader leads its
term its log is the one it checked (`transfer_hands_over`).

What the follower acknowledged it may have lost since, to a leader of a later term that this one
has not heard of.  Otherwise it has it all, provided that the table is of the leader's present term:
an election that is won while there is one already goes on with the old match indices.
`handover_incomplete` has a run of each kind.
-/
import PyRaftKv.Guarantees.Barrier
import PyRaftKv.Guarantees.Progress
import PyRaftKv.Refinement.Locking

open Consensus

namespace PyRaftKv

open Cluster

/-! ## 1. A call of `transfer_leadership` -/

/-- The term of the transfer that call `i` of member `v` is at, where it waits for the answer to
TimeoutNow. -/
def Cluster.handover (c : Cluster) (v : NodeId) (i : Nat) : Option Int :=
  match (c.process v).bind fun p => p.calls i with
  | some (.transferWaiting term _) => some term
  | _ => none

/-- Call `i` of member `v` sends TimeoutNow of term `t` to `f`. -/
structure SendsTimeoutNow (v : NodeId) (i : Nat) (f : NodeId) (t : Int) (c c' : Cluster) :
    Prop where
  step : c.step (.run v (.finishRound i)) = some c'
  waits : c'.handover v i = some t
  sent : c'.rpcs = c.rpcs ++ [⟨v, f, .timeoutNow ⟨t, v⟩⟩]

/-- Anything happens while the call waits. -/
structure HandoverStep (v : NodeId) (i : Nat) (t : Int) (c c' : Cluster) : Prop where
  step : ∃ a, c.step a = some c'
  before : c.handover v i = some t
  after : c'.handover v i = some t

/-- The call returns `result`, in a transfer of term `t`. -/
inductive TransferReturns (v : NodeId) (i : Nat) (t : Int) : Bool → Cluster → Cluster → Prop
  | answered {c c' : Cluster} {p : Process} {j rpc : Nat} {response : TimeoutNowResponse}
      {result : Bool} (hp : c.process v = some p)
      (hcall : p.calls i = some (.transferWaiting t rpc))
      (hanswer : c.answers[j]? = some ⟨rpc, .timeoutNow response⟩)
      (hresult : (RaftNode.transferResponse t response p.node).result = .ok result)
      (hstep : c.step (.run v (.transferAnswer i j)) = some c') : TransferReturns v i t result c c'
  | failed {c c' : Cluster} {p : Process} {rpc : Nat} (hp : c.process v = some p)
      (hcall : p.calls i = some (.transferWaiting t rpc))
      (hstep : c.step (.run v (.transferFail i)) = some c') : TransferReturns v i t false c c'
  | missed {c c' : Cluster} {p : Process} {targetId : Option NodeId} {round : Round}
      (hp : c.process v = some p)
      (hcall : p.calls i = some (.transferRound targetId t (some round)))
      (hselect : (RaftNode.transferSelect targetId t round.results p.node).result = .ok none)
      (hstep : c.step (.run v (.finishRound i)) = some c') : TransferReturns v i t false c c'
  | unready {c c' : Cluster} {p : Process} {targetId : Option NodeId} (hp : c.process v = some p)
      (hcall : p.calls i = some (.transferLeadership targetId))
      (hstart : (RaftNode.transferStart targetId p.node).result = .ok none)
      (hstep : c.step (.run v (.lockReplication i)) = some c') : TransferReturns v i t false c c'

/-- Member `f` has every entry that member `v` has in its log or in its snapshot: on its disk, and
in memory if it runs. -/
def HasAllOf (c : Cluster) (f v : NodeId) : Prop :=
  ∀ p e, c.process v = some p → Has p.node.log p.node.snapshot c.committed e →
    OnDiskHas (c.disk f) c.committed e ∧
      ∀ q, c.process f = some q → Has q.node.log q.node.snapshot c.committed e

/-- A majority of the members has gone on to a term later than `t`. -/
def MajorityPast (c : Cluster) (t : Int) : Prop :=
  ∃ R, IsMajority c.members R ∧ ∀ u ∈ R, t < (c.disk u).savedState.currentTerm

/-- Member `v` accepts writes: `submit_commands` appends any valid commands to its log. -/
def AcceptsWrites (c : Cluster) (v : NodeId) : Prop :=
  ∃ p, c.process v = some p ∧ ∀ commands : List RaftCommand, commands ≠ [] →
    (∀ x ∈ commands, RaftNode.validateCommand x = .ok ()) →
      ∃ entries, (RaftNode.submitStart commands p.node).result = .ok entries ∧
        entries.map (·.command) = commands ∧
        (RaftNode.submitStart commands p.node).node.log.entries = p.node.log.entries ++ entries

/-- Between `c` and `c'` the log of member `v` has stayed the same, but for its compaction. -/
def LogKept (v : NodeId) (c c' : Cluster) : Prop :=
  ∃ p p', c.process v = some p ∧ c'.process v = some p' ∧
    p.node.log.compactThrough p'.node.log.baseIndex = .ok p'.node.log

/-- A step in which member `v` wins no election while its table is there. -/
def CleanStep (v : NodeId) (c c' : Cluster) : Prop :=
  (∃ a, c.step a = some c') ∧ ∀ p p', c.process v = some p → c'.process v = some p' →
    p.node.WinsWithoutTable p'.node

/-- At some time member `v` had no table, and it has won no election with one since. -/
def TableRenewed (m : Members) (v : NodeId) (c : Cluster) : Prop :=
  ∃ c₀, Reachable m c₀ ∧ (∀ p, c₀.process v = some p → p.node.replication = none) ∧
    Relation.ReflTransGen (CleanStep v) c₀ c

/-- **What holds while call `i` of `v` waits**, when it sent TimeoutNow to `f` on the way from `c₀`
to `c₁` and the run has come to `c`. -/
structure HandedOver (m : Members) (v : NodeId) (i : Nat) (f : NodeId) (t : Int)
    (c₀ c₁ c : Cluster) : Prop where
  led : c.LeaderOf v t → ∀ c', Relation.ReflTransGen (HandoverStep v i t) c₁ c' →
    Relation.ReflTransGen (HandoverStep v i t) c' c → c'.LeaderOf v t
  complete : TableRenewed m v c₀ → c.LeaderOf v t → HasAllOf c f v ∨ MajorityPast c t
  barred : ∃ p, c.process v = some p ∧ ∀ commands : List RaftCommand,
    (RaftNode.submitStart commands p.node).node = p.node ∧
      (RaftNode.submitStart commands p.node).writes = []
  log : c.LeaderOf v t → LogKept v c₁ c
  returns : ∀ c', TransferReturns v i t true c c' → c.LeaderOf v t ∧ LogKept v c₁ c' ∧
    ∃ p', c'.process v = some p' ∧ p'.node.state.role = .follower ∧
      p'.node.state.currentTerm = t

theorem Cluster.handover_eq_some {c : Cluster} {v : NodeId} {i : Nat} {t : Int} :
    c.handover v i = some t ↔ ∃ p rpc, c.process v = some p ∧
      p.calls i = some (.transferWaiting t rpc) := by
  unfold Cluster.handover
  constructor
  · intro h
    split at h
    · rename_i term rpc hcall
      cases h
      obtain ⟨p, hp, hcall⟩ := Option.bind_eq_some_iff.mp hcall
      exact ⟨p, rpc, hp, hcall⟩
    · cases h
  · rintro ⟨p, rpc, hp, hcall⟩
    rw [hp, Option.bind_some, hcall]

/-! ## 2. The stretches of a transfer -/

namespace RaftNode

theorem leastId_mem : ∀ {ids : List NodeId} {id : NodeId}, leastId ids = some id → id ∈ ids
  | [], _, h => by cases h
  | x :: ids, id, h => by
    unfold leastId at h
    rcases hrest : leastId ids with _ | other
    · rw [hrest] at h
      cases h
      exact List.mem_cons_self
    · rw [hrest] at h
      simp only at h
      split at h <;> cases h
      · exact List.mem_cons_of_mem _ (leastId_mem hrest)
      · exact List.mem_cons_self

/-- What is checked before TimeoutNow is sent. -/
theorem transferSelect_some {n : RaftNode} {targetId : Option NodeId} {term : Int}
    {results : NodeId → Option Bool} {selected : NodeId} {request : TimeoutNowRequest}
    (h : (transferSelect targetId term results n).result = .ok (some (selected, request))) :
    ∃ r, n.replication = some r ∧ n.state.role = .leader ∧ n.state.currentTerm = term ∧
      n.log.lastIndex ≤ r.matchIndex selected ∧ request = ⟨term, n.nodeId⟩ := by
  simp only [transferSelect, NodeM.bind_run, NodeM.get_run, NodeM.andThen_ok,
    NodeM.behind_nil] at h
  rcases hrep : n.replication with _ | r
  · rw [hrep] at h
    cases h
  rw [hrep] at h
  simp only [NodeM.ite_run] at h
  split at h
  · cases h
  rename_i hlead
  push Not at hlead
  have hsel := Except.ok.inj h
  obtain ⟨s, hs, heq⟩ := Option.map_eq_some_iff.mp hsel
  obtain ⟨rfl, rfl⟩ := Prod.mk.inj heq
  refine ⟨r, rfl, hlead.1, hlead.2, ?_, rfl⟩
  have hmem : s ∈ r.followers.filter fun f =>
      results f = some true ∧ r.matchIndex f ≥ n.log.lastIndex := by
    rcases targetId with _ | target
    · exact leastId_mem hs
    · simp only at hs
      split at hs <;> cases hs
      assumption
  simpa using (List.mem_filter.mp hmem).2 |> of_decide_eq_true |>.2

/-- While a transfer is on, `submit_commands` does nothing. -/
theorem submitStart_barred {n : RaftNode} (h : n.leadershipTransferInProgress = true)
    (commands : List RaftCommand) :
    (submitStart commands n).node = n ∧ (submitStart commands n).writes = [] := by
  unfold submitStart
  simp only [NodeM.bind_run, NodeM.get_run, NodeM.andThen_ok, NodeM.behind_nil, NodeM.ite_run, h,
    if_true]
  split <;> exact ⟨rfl, rfl⟩

/-- A transfer that succeeds steps down in the term it led. -/
theorem transferResponse_true {n : RaftNode} {term : Int} {response : TimeoutNowResponse}
    (h : (transferResponse term response n).result = .ok true) :
    n.state.role = .leader ∧ n.state.currentTerm = term ∧
      (transferResponse term response n).node.state.role = .follower ∧
      (transferResponse term response n).node.state.currentTerm = term := by
  simp only [transferResponse, NodeM.bind_run, NodeM.get_run, NodeM.andThen_ok,
    NodeM.behind_nil, NodeM.ite_run, NodeM.pure_run] at h ⊢
  split at h
  · cases h
  rename_i hlead
  rw [if_neg hlead]
  push Not at hlead
  split at h
  · rename_i hnew
    simp only [becomeFollower, persistState, NodeM.bind_run, NodeM.get_run,
      NodeM.andThen_ok, RaftState.becomeFollower_ok none hnew.le, NodeM.lift_ok_run,
      NodeM.modify_run, NodeM.persist_run, NodeM.pure_run, NodeM.behind_mk] at h
    cases h
  rename_i hnew
  rw [if_neg hnew]
  split at h
  · cases h
  rename_i haccepted
  obtain ⟨hrole, rfl⟩ := hlead
  rw [if_neg haccepted]
  simp only [becomeFollower, NodeM.bind_run, NodeM.get_run, NodeM.andThen_ok,
    RaftState.becomeFollower_ok none le_rfl, NodeM.lift_ok_run, NodeM.modify_run, NodeM.pure_run,
    NodeM.behind_mk]
  exact ⟨hrole, trivial, rfl, rfl⟩

theorem handleAppendEntries_follower {s : RaftState} {request : AppendEntriesRequest}
    (hterm : s.currentTerm ≤ request.term) (log : RaftLog) (store : KVStore) :
    (PyRaftKv.handleAppendEntries s log request store).2.1.role = .follower := by
  unfold PyRaftKv.handleAppendEntries
  rw [if_neg (not_lt.mpr hterm), RaftState.becomeFollower_ok _ hterm]
  simp only
  split
  · rfl
  split
  · rfl
  split
  · rfl
  · rename_i log' _
    have hrole := (updateFollowerCommit_role (s.follow request.term (some request.leaderId)) log'
      store request.leaderCommit).1
    split
    · rename_i hrun
      rw [hrun] at hrole
      exact hrole
    · rename_i hrun
      rw [hrun] at hrole
      exact hrole

theorem handleAppendEntries_old {s : RaftState} {request : AppendEntriesRequest}
    (hterm : request.term < s.currentTerm) (log : RaftLog) (store : KVStore) :
    PyRaftKv.handleAppendEntries s log request store =
      (.ok ⟨s.currentTerm, false⟩, s, log, store) := by
  unfold PyRaftKv.handleAppendEntries
  rw [if_pos hterm]

theorem handleAppendEntries_log {clock : Clock} {r : AppendEntriesRequest} {n : RaftNode}
    (hlead : (handleAppendEntries clock r n).node.state.role = .leader) :
    (handleAppendEntries clock r n).node.log = n.log := by
  obtain ⟨state, log, store, hrun, hrest⟩ := handleAppendEntries_rests clock r n
  rw [hrest.log]
  rcases Int.lt_or_le r.term n.state.currentTerm with hlt | hge
  · rw [handleAppendEntries_old hlt] at hrun
    cases hrun
    rfl
  · have hfollower := handleAppendEntries_follower hge n.log n.store
    rw [hrun] at hfollower
    rw [hrest.state, show (RaftNode.state _) = state from rfl, hfollower] at hlead
    cases hlead

/-- Two nodes in one role. -/
def SameRole (n n' : RaftNode) : Prop := n'.state.role = n.state.role

instance : Std.Refl SameRole := ⟨fun _ => rfl⟩
instance : IsTrans RaftNode SameRole := ⟨fun _ _ _ h h' => Eq.trans h' h⟩

/-- What goes on after the node has become a follower leaves a follower. -/
theorem becomeFollower_andThen {α : Type} {n : RaftNode} {term : Int} {leaderId : Option NodeId}
    {f : Unit → NodeM α} (hterm : n.state.currentTerm ≤ term)
    (hf : ∀ u, NodeM.Keeping SameRole (f u)) :
    ((becomeFollower term leaderId n).andThen f).node.state.role = .follower := by
  have hrun : becomeFollower term leaderId n =
      ⟨.ok (), { n with state := n.state.follow term leaderId }, []⟩ := by
    unfold becomeFollower
    simp only [NodeM.bind_run, NodeM.get_run, NodeM.andThen_ok, NodeM.behind_nil,
      RaftState.becomeFollower_ok _ hterm, NodeM.lift_ok_run, NodeM.modify_run]
  rw [hrun, NodeM.andThen_ok, NodeM.behind_nil]
  exact (hf () { n with state := n.state.follow term leaderId }).trans rfl

theorem handleInstallSnapshot_follower (clock : Clock) {r : InstallSnapshotRequest}
    {n : RaftNode} (hge : n.state.currentTerm ≤ r.term) :
    (handleInstallSnapshot clock r n).node.state.role = .follower := by
  have htimer : NodeM.Keeping SameRole (NodeM.modify fun n => { n with
      timer := .reset clock.now clock.timeout }) := .modify fun _ => rfl
  have happly : NodeM.Keeping SameRole applyCommitted := fun n =>
    (applyEntries_role n.log (n.state.commitIndex - n.state.lastApplied).toNat n.state n.store).1
  unfold handleInstallSnapshot
  simp only [NodeM.bind_run, NodeM.get_run, NodeM.andThen_ok, NodeM.behind_nil, NodeM.ite_run,
    if_neg (not_lt.mpr hge)]
  refine becomeFollower_andThen hge fun _ => ?_
  refine .bind (.modify fun _ => rfl) fun _ => .bind .get fun n => ?_
  refine .ite (.bind (persistTerm_keeps _) fun _ => .pure _) <| .ite
    (.bind (persistTerm_keeps _) fun _ => .bind htimer fun _ => .pure _) <| .ite
    (.bind (persistTerm_keeps _) fun _ => .pure _) ?_
  refine .bind (.lift _) fun _ => .bind (.lift _) fun _ => ?_
  split
  · exact .bind (persistTerm_keeps _) fun _ => .pure _
  · refine .ite (.bind (persistTerm_keeps _) fun _ => .pure _) ?_
    refine .bind (.persist _) fun _ => .bind (.persist _) fun _ => ?_
    refine .bind (.modify fun _ => rfl) fun _ => .bind happly fun _ => ?_
    exact .bind persistState_keeps fun _ => .bind htimer fun _ => .pure _

theorem handleInstallSnapshot_log {clock : Clock} {r : InstallSnapshotRequest}
    {n : RaftNode}
    (hlead : (handleInstallSnapshot clock r n).node.state.role = .leader) :
    (handleInstallSnapshot clock r n).node.log = n.log := by
  rcases Int.lt_or_le r.term n.state.currentTerm with hlt | hge
  · simp only [handleInstallSnapshot, NodeM.bind_run, NodeM.get_run, NodeM.andThen_ok,
      NodeM.behind_nil, NodeM.ite_run, if_pos hlt, NodeM.pure_run]
  · rw [handleInstallSnapshot_follower clock hge] at hlead
    cases hlead

end RaftNode

/-! ## 3. The table of the present term -/

/-- Member `v`'s table holds what its followers acknowledged in the term that it leads. -/
def TableOwn (c : Cluster) (g : Grp) (v : NodeId) : Prop :=
  ∀ p r, c.process v = some p → p.node.state.role = .leader → p.node.replication = some r →
    ∀ (f : NodeId) (k : Nat), 0 < k → (k : Int) ≤ r.matchIndex f →
      (f, p.node.state.currentTerm, k) ∈ g.history.acks

section Table

variable {c c' : Cluster} {g g' : Grp} {a : Action} {v : NodeId} {p : Process} {op : Op} {t : Turn}

/-- A table whose process does not move. -/
theorem TableOwn.still (h : TableOwn c g v) (hp : c'.process v = c.process v)
    (ha : g.history.acks ⊆ g'.history.acks) : TableOwn c' g' v :=
  fun p r hp' hlead hr f k hk hle => ha (h p r (hp ▸ hp') hlead hr f k hk hle)

/-- A success answer to a worker acknowledges what its request covers. -/
theorem Refines.confirmed (hr : Refines c g) (hp : c.process v = some p) {f : NodeId}
    {id i : Nat} {answer : Answer} {request : ReplicationRequest} {term : Int}
    (hfuture : p.futures f = some ⟨id, .waiting answer.rpc request⟩)
    (hans : c.answers[i]? = some answer)
    (hread : Process.replicationAnswer answer.response = some (term, true)) :
    ∃ k : Nat, request.lastIndex = k ∧ (f, request.term, k) ∈ g.history.acks := by
  have hrpc := hr.waiting v p f _ _ hp ⟨id, hfuture⟩
  obtain ⟨x, hx, hanswered, -⟩ := hr.answers _ (List.mem_of_getElem? hans)
  obtain rfl : x = ⟨v, f, request.toRequest⟩ := Option.some.inj (hx.symm.trans hrpc)
  obtain ⟨rpc, response⟩ := answer
  -- the answer is of the kind of the request
  rcases request with r | r <;> rcases response with s | s | s | s
  all_goals first
    | exact hanswered.elim
    | have hsuccess := (Prod.mk.inj (Option.some.inj hread)).2
      exact (hanswered hsuccess).2

/-- **A turn keeps the table of the present term**, if it wins no election with a table there. -/
theorem TableOwn.turn (hr : Refines c g) (h : TableOwn c g v) (hp : c.process v = some p)
    (ht : p.turn c v op = some t) (ha : g.history.acks ⊆ g'.history.acks)
    (hwins : p.node.WinsWithoutTable t.process.node) : TableOwn (c.finish v op t) g' v := by
  intro q r' hq hlead' hrep' f' k hk hle
  obtain rfl : q = t.process :=
    Option.some.inj (hq.symm.trans (Cluster.finish_process_self _ _ _))
  rcases turn_cases ht with htend | ⟨f, i, answer, id, request, term, success, r, r₁, rfl, hans,
    hreply, hfuture, hlead, hterm, hrep, hconf, hnode⟩
  · rcases htend.matched r' hrep' with hzero | ⟨r, hrep, hsame⟩
    · rw [hzero f'] at hle
      omega
    rcases hwins hlead' with ⟨hlead, hterm⟩ | hnone
    · rw [hterm]
      rw [hsame] at hle
      exact ha (h p r hp hlead hrep f' k hk hle)
    · rw [hrep] at hnone
      cases hnone
  · rw [hnode] at hrep' ⊢
    obtain rfl : r₁ = r' := Option.some.inj hrep'
    rcases hconf.matched f' with hsame | ⟨rfl, rfl, hindex⟩
    · exact ha (h p r hp hlead hrep f' k hk (hsame ▸ hle))
    · obtain ⟨k', hk', hmem⟩ := hr.confirmed hp hfuture hans hreply
      rw [hindex, hk'] at hle
      change (f', p.node.state.currentTerm, k) ∈ _
      rw [← hterm]
      exact ha (hr.sound.history.ack_below f' _ k' k hmem (by omega))

/-- **Every step keeps the table of the present term.** -/
theorem TableOwn.step (hr : Refines c g) (h : TableOwn c g v) (hmv : Moved c g a c' g')
    (hwins : ∀ p p', c.process v = some p → c'.process v = some p' →
      p.node.WinsWithoutTable p'.node) : TableOwn c' g' v := by
  have ha := (hmv.longer hr).acks
  cases hmv with
  | elapse ms => exact h.still rfl ha
  | @start u timeout n ws hdown hinit hup hread =>
    by_cases hu : v = u
    · subst hu
      have hrole : n.state.role = .follower := by
        rw [← NodeRole.role_follower, ← hup.mirrors.role]
        exact (hr.down v hdown).2
      have hone : ∀ {q : Process}, Function.update c.process v (some ({ node := n } : Process)) v =
          some q → q.node.state.role = .follower := fun hq => by
        rw [Function.update_self] at hq
        cases hq
        exact hrole
      intro q r hq hlead
      rw [hone hq] at hlead
      cases hlead
    · exact h.still (Function.update_of_ne hu _ _) ha
  | @run u op p t _ _ hp ht _ =>
    by_cases hu : v = u
    · subst hu
      exact h.turn hr hp ht ha (hwins p t.process hp (Cluster.finish_process_self _ _ _))
    · exact h.still (Cluster.finish_process_of_ne _ _ _ hu) ha
  | @fall _ u ws =>
    by_cases hu : v = u
    · subst hu
      have hnone : (c.down v ws).process v = none := Cluster.down_process_self _ _
      intro q r hq
      exact absurd (hnone.symm.trans hq) (by simp)
    · exact h.still (Cluster.down_process_of_ne _ ws hu) ha

/-- **A table made after the last election** is of the present term. -/
theorem TableRenewed.own {m : Members} (h : TableRenewed m v c) :
    ∃ g, Refines c g ∧ TableOwn c g v := by
  obtain ⟨c₀, hc₀, hnone, hrun⟩ := h
  induction hrun with
  | refl =>
    obtain ⟨g, hr, -⟩ := hc₀.refines
    refine ⟨g, hr, fun p r hp _ hrep => ?_⟩
    rw [hnone p hp] at hrep
    cases hrep
  | tail _ hstep ih =>
    obtain ⟨g, hr, h⟩ := ih
    obtain ⟨⟨a, hs⟩, hwins⟩ := hstep
    obtain ⟨g', hmv⟩ := hr.step hs
    exact ⟨g', hmv.refines hr, h.step hr hmv hwins⟩

end Table

/-! ## 4. The log while the call waits -/

section Run

variable {m : Members} {c c' c₁ : Cluster} {g g' g₁ : Grp} {a : Action} {v f : NodeId} {i : Nat}
  {p : Process} {t : Int}

/-- **While a transfer is on, no stretch that ends in a leader makes the log longer or shorter.** -/
theorem StretchOf.lastIndex {op : Op} {n : RaftNode} {d : DataDir} {q : PeerState} {h : Hist}
    (hl : Live m v p.node d q h) (hflag : p.node.leadershipTransferInProgress = true)
    (hs : StretchOf c p op n) (hlead : n.state.role = .leader) :
    n.log.lastIndex = p.node.log.lastIndex := by
  open RaftNode in
  cases hs with
  -- only a request of an older term leaves a leader
  | appendEntries => rw [handleAppendEntries_log hlead]
  | installSnapshot => rw [handleInstallSnapshot_log hlead]
  | createSnapshot =>
    rcases createSnapshot_lawful hl with hsame | ⟨n', ws, hrun, hla, -⟩
    · rw [hsame]
    · rw [hrun, hla.up.mirrors.log.lastIndex, hl.mirrors.log.lastIndex]
  | submitStart => rw [(submitStart_barred hflag _).1]
  | tickStart => rw [(tickStart_stands _ _).log]
  | tickResponse => rw [(tickResponse_stands _ _ _ _).log]
  | requestVote => rw [(handleRequestVote_stands _ _ _).log]
  | timeoutNow => rw [(handleTimeoutNow_stands _ _).log]
  | replicateBuild => rw [(replicateBuild_stands _ _).log]
  | replicateResponse => rw [(replicateResponse_stands _ _ _ _ _).log]
  | replicateLogStart => rw [(replicateLogStart_stands _).log]
  | transferStart =>
    obtain ⟨result, n', hrun, hidle⟩ := transferStart_idle hl.toUp _
    rw [hrun, hidle.same]
  | roundStart => rw [(roundStart_stands _).log]
  | replicateLogFinish => rw [(replicateLogFinish_stands _).log]
  | transferSelect => rw [(transferSelect_stands _ _ _ _).log]
  | transferMiss => exact congrArg RaftLog.lastIndex (transferSelect_stands _ _ _ _).log
  | submitResults => rw [(submitResults_stands _ _).log]
  | getStart => rw [(getStart_stands _ _ _).log]
  | confirmStart => rw [(confirmStart_stands _).log]
  | confirmFinish => rw [(confirmFinish_stands _ _ _ _).log]
  | getFinish => rw [(getFinish_stands _ _ _).log]
  | transferResponse => exact congrArg RaftLog.lastIndex (transferResponse_stands _ _ _).log
  | transferFail => rfl
  | roundRaise => exact congrArg RaftLog.lastIndex (roundStart_stands _).log
  | same => rfl

/-- **A step in which the member goes on leading** while a transfer is on leaves its log alone. -/
theorem Moved.leader_log (hr : Refines c g) (hmv : Moved c g a c' g') (hp : c.process v = some p)
    (hflag : p.node.leadershipTransferInProgress = true) (hbefore : c.LeaderOf v t)
    (hafter : c'.LeaderOf v t) : (g'.peer v).log = (g.peer v).log := by
  have hr' := hmv.refines hr
  obtain ⟨p₀, hp₀, hrole, hterm⟩ := hbefore
  obtain rfl : p = p₀ := Option.some.inj (hp.symm.trans hp₀)
  obtain ⟨e, he, het, -, hlog⟩ := hr.led hp hrole
  obtain ⟨p', hp', hrole', hterm'⟩ := hafter
  obtain ⟨-, -, -, -, hlog'⟩ := hr'.led hp' hrole'
  rw [hterm] at het hlog
  rw [hterm'] at hlog'
  have hgrown : (g.peer v).log <+: (g'.peer v).log := by
    rw [hlog, hlog']
    exact (hmv.longer hr).leader_isPrefix ⟨e, he, het⟩
  refine (hgrown.eq_of_length ?_).symm
  have hshows := (hr.up v p hp).mirrors.log.lastIndex
  have hshows' := (hr'.up v p' hp').mirrors.log.lastIndex
  suffices hsame : p'.node.log.lastIndex = p.node.log.lastIndex by omega
  have hstill : c'.process v = c.process v → p'.node.log.lastIndex = p.node.log.lastIndex :=
    fun hsame => by rw [Option.some.inj ((hp'.symm.trans hsame).trans hp)]
  cases hmv with
  | elapse ms => exact hstill rfl
  | @start u _ _ _ hdown =>
    refine hstill (Function.update_of_ne (fun hu => ?_) _ _)
    rw [← hu, hp] at hdown
    cases hdown
  | @run u op q turn _ _ hq hturn =>
    by_cases hu : v = u
    · subst hu
      obtain rfl : p = q := Option.some.inj (hp.symm.trans hq)
      obtain rfl := Option.some.inj (hp'.symm.trans (Cluster.finish_process_self _ _ _))
      exact (turn_stretch hturn).lastIndex (hr.live hp) hflag hrole'
    · exact hstill (Cluster.finish_process_of_ne _ _ _ hu)
  | @fall _ u ws =>
    refine hstill (Cluster.down_process_of_ne _ ws fun hu => ?_)
    have hnone : (c.down u ws).process u = none := Cluster.down_process_self _ _
    rw [hu] at hp'
    cases hnone.symm.trans hp'

theorem HandoverStep.goesOn (hstep : HandoverStep v i t c c') :
    (∃ a, c.step a = some c') ∧ (c.process v).isSome := by
  obtain ⟨p, -, hp, -⟩ := Cluster.handover_eq_some.mp hstep.before
  exact ⟨hstep.step, Option.isSome_of_eq_some hp⟩

/-- The flag is set while the call waits. -/
theorem Cluster.Locked.barred (h : c.Locked) (hwaits : c.handover v i = some t) :
    ∃ p, c.process v = some p ∧ p.node.leadershipTransferInProgress = true := by
  obtain ⟨p, rpc, hp, hcall⟩ := Cluster.handover_eq_some.mp hwaits
  exact ⟨p, hp, (h v p hp).flag.mpr ⟨i, _, hcall, rfl⟩⟩

/-- **What the waiting leaves**, against the group where it began. -/
structure Waited (v : NodeId) (t : Int) (g₁ : Grp) (c : Cluster) (g : Grp) : Prop where
  refines : Refines c g
  locked : c.Locked
  acks : g₁.history.acks ⊆ g.history.acks
  led : ∃ e ∈ g.history.elections, e.term = t ∧ e.leader = v
  term : t ≤ (g.peer v).term
  base : (g₁.peer v).base ≤ (g.peer v).base
  log : c.LeaderOf v t → (g.peer v).log = (g₁.peer v).log

/-- **While the call waits**, the leader's log is the one it checked. -/
theorem Waited.step (h : Waited v t g₁ c g) (hstep : HandoverStep v i t c c') :
    ∃ g', Waited v t g₁ c' g' := by
  obtain ⟨a, ha⟩ := hstep.step
  obtain ⟨g', hmv⟩ := h.refines.step ha
  have hx := hmv.longer h.refines
  obtain ⟨e, he, het, hev⟩ := h.led
  refine ⟨g', hmv.refines h.refines, Step.locked ⟨a, ha⟩ h.locked, h.acks.trans hx.acks,
    ⟨e, hx.elections.subset he, het, hev⟩, h.term.trans (hmv.term_le v),
    h.base.trans (hmv.base_le v), fun hafter => ?_⟩
  have hbefore : c.LeaderOf v t := led_throughout (fun hs => HandoverStep.goesOn hs)
    (.single hstep) hafter h.refines h.led h.term
  obtain ⟨p, hp, hflag⟩ := h.locked.barred hstep.before
  exact (hmv.leader_log h.refines hp hflag hbefore hafter).trans (h.log hbefore)

theorem Waited.run (h : Waited v t g₁ c₁ g)
    (hrun : Relation.ReflTransGen (HandoverStep v i t) c₁ c) : ∃ g, Waited v t g₁ c g := by
  induction hrun with
  | refl => exact ⟨g, h⟩
  | tail _ hstep ih =>
    obtain ⟨g', h'⟩ := ih
    exact h'.step hstep

/-! ## 5. Where the call begins to wait, and where it returns -/

/-- A round whose call waits for TimeoutNow afterwards is that of a transfer that found a
follower. -/
theorem finishRound_waits {next rpc : Nat} {turn : Turn} (ht : p.finishRound i next = some turn)
    (hwaits : turn.process.calls i = some (.transferWaiting t rpc)) :
    ∃ targetId round selected request,
      p.calls i = some (.transferRound targetId t (some round)) ∧
      (RaftNode.transferSelect targetId t round.results p.node).result =
        .ok (some (selected, request)) ∧
      turn.sends = [(selected, .timeoutNow request)] ∧ turn.process.node = p.node := by
  unfold Process.finishRound at ht
  split at ht
  · simp only at ht
    split at ht
    · cases ht
      simp only [Process.calls_endCall, reduceCtorEq] at hwaits
    · split at ht <;> cases ht
      · simp only [Process.calls_endCall, reduceCtorEq] at hwaits
      · simp only [Process.release, Process.calls_setCall, Option.some.injEq,
          reduceCtorEq] at hwaits
  · cases ht
    simp only [Process.calls_endCall, reduceCtorEq] at hwaits
  · rename_i targetId term round hcall
    simp only at ht
    split at ht
    · rename_i selected request hrun
      cases ht
      simp only [Process.calls_setCall] at hwaits
      cases hwaits
      obtain ⟨result, hsame⟩ := transferSelect_idle (n := p.node) targetId t round.results
      refine ⟨targetId, round, selected, request, hcall, hrun, rfl, ?_⟩
      simp only [Process.node_setCall, Process.after, hsame]
    · cases ht
      simp only [Process.calls_endCall, reduceCtorEq] at hwaits
  · cases ht

/-- A round that leaves its call waiting has sent TimeoutNow. -/
theorem Refines.sends (hr : Refines c g) (hstep : c.step (.run v (.finishRound i)) = some c₁)
    (hwaits : c₁.handover v i = some t) : ∃ f, SendsTimeoutNow v i f t c c₁ := by
  obtain ⟨g', hmv⟩ := hr.step hstep
  obtain ⟨p, turn, -, -, hp, ht, -, rfl, -⟩ := hmv.run_inv
  obtain ⟨q, rpc, hq, hcall⟩ := Cluster.handover_eq_some.mp hwaits
  obtain rfl := Option.some.inj (hq.symm.trans (Cluster.finish_process_self _ _ _))
  obtain ⟨targetId, round, selected, request, -, hrun, hsends, -⟩ := finishRound_waits ht hcall
  obtain ⟨r, -, -, -, -, rfl⟩ := RaftNode.transferSelect_some hrun
  refine ⟨selected, hstep, hwaits, ?_⟩
  simp only [Cluster.finish, hsends, (hr.up v p hp).id, List.map_cons, List.map_nil]

/-- **When TimeoutNow is sent**, the member leads the term of the transfer, before and after, and
its table has the receiver at the end of its log. -/
theorem SendsTimeoutNow.begins (hr : Refines c g) (h : SendsTimeoutNow v i f t c c₁) :
    c.LeaderOf v t ∧ c₁.LeaderOf v t ∧ ∃ p r call, c.process v = some p ∧
      p.calls i = some call ∧ call.transferring = true ∧ p.node.replication = some r ∧
      p.node.log.lastIndex ≤ r.matchIndex f := by
  obtain ⟨g', hmv⟩ := hr.step h.step
  obtain ⟨p, turn, -, -, hp, ht, -, rfl, -⟩ := hmv.run_inv
  obtain ⟨q, rpc, hq, hwaits⟩ := Cluster.handover_eq_some.mp h.waits
  obtain rfl := Option.some.inj (hq.symm.trans (Cluster.finish_process_self _ _ _))
  obtain ⟨targetId, round, selected, request, hcall, hrun, hsends, hsame⟩ :=
    finishRound_waits ht hwaits
  obtain ⟨r, hrep, hrole, hterm, hindex, rfl⟩ := RaftNode.transferSelect_some hrun
  have hsent := List.append_cancel_left h.sent
  simp only [hsends, List.map_cons, List.map_nil, List.cons.injEq, Rpc.mk.injEq, true_and,
    and_true] at hsent
  obtain ⟨rfl, -⟩ := hsent
  exact ⟨⟨p, hp, hrole, hterm⟩, ⟨_, Cluster.finish_process_self _ _ _, hsame ▸ hrole,
    hsame ▸ hterm⟩, p, r, _, hp, hcall, rfl, hrep, hindex⟩

/-- A member's step is a turn of its process. -/
theorem turn_of_step {op : Op} (hp : c.process v = some p)
    (hstep : c.step (.run v op) = some c') :
    ∃ t, p.turn c v op = some t ∧ c'.process v = some t.process := by
  simp only [Cluster.step, hp] at hstep
  obtain ⟨t, ht, rfl⟩ := Option.map_eq_some_iff.mp hstep
  exact ⟨t, ht, Cluster.finish_process_self _ _ _⟩

/-- **A call that returns** leaves the flag cleared. -/
theorem TransferReturns.flag_off {result : Bool} (hlocked : c.Locked)
    (h : TransferReturns v i t result c c') :
    ∃ p, c'.process v = some p ∧ p.node.leadershipTransferInProgress = false := by
  cases h with
  | @answered _ _ p j rpc response _ hp hcall hanswer hresult hstep =>
    obtain ⟨turn, ht, hp'⟩ := turn_of_step hp hstep
    replace ht : (c.answers[j]?).bind (p.transferAnswer i) = some turn := ht
    rw [hanswer, Option.bind_some] at ht
    simp only [Process.transferAnswer, hcall, ne_eq, not_true_eq_false, if_false] at ht
    cases ht
    exact ⟨_, hp', rfl⟩
  | @failed _ _ p rpc hp hcall hstep =>
    obtain ⟨turn, ht, hp'⟩ := turn_of_step hp hstep
    simp only [Process.turn, hcall] at ht
    cases ht
    exact ⟨_, hp', rfl⟩
  | @missed _ _ p targetId round hp hcall hselect hstep =>
    obtain ⟨turn, ht, hp'⟩ := turn_of_step hp hstep
    simp only [Process.turn, Process.finishRound, hcall, hselect] at ht
    cases ht
    exact ⟨_, hp', rfl⟩
  | @unready _ _ p targetId hp hcall hstart hstep =>
    obtain ⟨turn, ht, hp'⟩ := turn_of_step hp hstep
    replace ht : p.lockReplication i = some turn := ht
    unfold Process.lockReplication at ht
    split at ht
    · cases ht
    rename_i hfree
    simp only [hcall, hstart] at ht
    cases ht
    refine ⟨_, hp', ?_⟩
    rcases RaftNode.transferStart_flag targetId p.node with ⟨term, hok, -⟩ | ⟨-, hsame⟩
    · rw [hstart] at hok
      cases hok
    · exact Eq.trans hsame ((hlocked v p hp).flag_free (not_not.mp hfree))

/-- **A call that returns `True`** left the leader of its term a follower in it, its log as it
was. -/
theorem TransferReturns.steps_down (h : TransferReturns v i t true c c') :
    ∃ p p', c.process v = some p ∧ c'.process v = some p' ∧ p.node.state.role = .leader ∧
      p.node.state.currentTerm = t ∧ p'.node.log = p.node.log ∧
      p'.node.state.role = .follower ∧ p'.node.state.currentTerm = t := by
  cases h with
  | @answered _ _ p j rpc response _ hp hcall hanswer hresult hstep =>
    obtain ⟨turn, ht, hp'⟩ := turn_of_step hp hstep
    replace ht : (c.answers[j]?).bind (p.transferAnswer i) = some turn := ht
    rw [hanswer, Option.bind_some] at ht
    simp only [Process.transferAnswer, hcall, ne_eq, not_true_eq_false, if_false] at ht
    cases ht
    obtain ⟨hrole, hterm, hrole', hterm'⟩ := RaftNode.transferResponse_true hresult
    exact ⟨p, _, hp, hp', hrole, hterm,
      (RaftNode.transferResponse_stands t response p.node).log, hrole', hterm'⟩

/-- `submit_commands` raises nothing on valid commands. -/
theorem forM_validateCommand_ok : ∀ {commands : List RaftCommand},
    (∀ x ∈ commands, RaftNode.validateCommand x = .ok ()) →
      commands.forM RaftNode.validateCommand = .ok ()
  | [], _ => rfl
  | x :: rest, h => by
    rw [forM_validateCommand_cons, h x List.mem_cons_self]
    exact forM_validateCommand_ok fun y hy => h y (List.mem_cons_of_mem _ hy)

/-- **A leader whose flag is cleared accepts writes.** -/
theorem Refines.acceptsWrites (hr : Refines c g) (hp : c.process v = some p)
    (hfree : p.node.leadershipTransferInProgress = false) (hlead : c.LeaderOf v t) :
    AcceptsWrites c v := by
  obtain ⟨q, hq, hrole, -⟩ := hlead
  obtain rfl : p = q := Option.some.inj (hp.symm.trans hq)
  refine ⟨p, hp, fun commands hne hvalid => ?_⟩
  obtain ⟨es, n', ws, h', hrun, hla, -, -, -, -, hcommands⟩ := submitStart_appends (hr.live hp)
    (by simpa using hne) (by simp [hfree]) hrole (forM_validateCommand_ok hvalid)
  rw [hrun]
  refine ⟨es, rfl, hcommands, ?_⟩
  have hshows := (hr.up v p hp).mirrors.log
  rw [hla.up.mirrors.log.entries, hshows.entries]
  exact List.drop_append_of_le_length hshows.le

/-! ## 6. The handover -/

/-- What is acknowledged in the present term is there, unless a later leader has taken it away. -/
theorem Refines.handed_over (hr : Refines c g) (hlead : c.LeaderOf v t)
    (hack : (g.peer v).log ≠ [] → (f, t, (g.peer v).log.length) ∈ g.history.acks) :
    HasAllOf c f v ∨ MajorityPast c t := by
  obtain ⟨p, hp, hrole, hterm⟩ := hlead
  obtain ⟨-, -, -, -, hlog⟩ := hr.led hp hrole
  rw [hterm] at hlog
  by_cases hkept : (g.peer v).log <+: (g.peer f).log
  · refine Or.inl fun q e hq hhas => ?_
    obtain rfl : p = q := Option.some.inj (hp.symm.trans hq)
    have hm := (hr.up v p hp).mirrors
    obtain ⟨k, -, hk⟩ := Has.getElem hm.log hm.snapshot.index (hr.base_isPrefix v)
      hr.committed_whole hhas
    have hk' := getElem?_mono hkept hk
    exact ⟨(hr.onDisk f).has (hr.peer_whole f) (hr.base_isPrefix f) hk', fun q hq =>
      hr.has hq (List.prefix_refl _) hk'⟩
  · have hne : (g.peer v).log ≠ [] := fun hnil => hkept (hnil ▸ List.nil_prefix)
    obtain ⟨-, hholds | ⟨u, ⟨e, he, rfl⟩, hlt, -⟩⟩ := (hr.sound.peer f).acks _ _ (hack hne)
    · refine absurd ?_ hkept
      have : (g.history.leaderLog t).take (g.peer v).log.length <+: (g.peer f).log := hholds
      rwa [← hlog, List.take_length] at this
    · -- a later leader does not hold it: a majority has voted for that one
      obtain ⟨es, hes⟩ := suffix_of_mem he
      obtain ⟨⟨R, hsub, hRq, hcard⟩, -⟩ := hr.sound.history.election_quorum e es hes
      refine Or.inr ⟨R, ⟨hsub, c.members.card ▸ hcard⟩, fun u hu => ?_⟩
      rw [(hr.onDisk u).term]
      exact hlt.trans_le ((hr.sound.peer u).voter_term hr.sound.history he (hRq hu)).1

/-- The checked table has the whole log of the leader acknowledged. -/
theorem TableOwn.whole_log (hr : Refines c g) (h : TableOwn c g v) {r : LeaderReplication}
    (hp : c.process v = some p) (hrole : p.node.state.role = .leader)
    (hrep : p.node.replication = some r) (hindex : p.node.log.lastIndex ≤ r.matchIndex f)
    (hne : (g.peer v).log ≠ []) :
    (f, p.node.state.currentTerm, (g.peer v).log.length) ∈ g.history.acks := by
  refine h p r hp hrole hrep f _ (List.length_pos_iff.mpr hne) ?_
  rwa [← (hr.up v p hp).mirrors.log.lastIndex]

theorem Waited.kept (h₁ : Refines c₁ g₁) (hlead₁ : c₁.LeaderOf v t) (h : Waited v t g₁ c g)
    (hlead : c.LeaderOf v t) : LogKept v c₁ c := by
  obtain ⟨p₁, hp₁, -⟩ := hlead₁
  obtain ⟨p, hp, -⟩ := id hlead
  have hs₁ := (h₁.up v p₁ hp₁).mirrors.log
  have hs := (h.refines.up v p hp).mirrors.log
  rw [h.log hlead] at hs
  refine ⟨p₁, p, hp₁, hp, ?_⟩
  obtain ⟨log, hcompact, hlog⟩ := hs₁.compactThrough h.base hs.le
  rw [hs.base, hcompact, hlog.unique hs]

theorem SendsTimeoutNow.waited (hr : Refines c g) (hlocked : c.Locked)
    (h : SendsTimeoutNow v i f t c c₁) :
    ∃ g₁, Waited v t g₁ c₁ g₁ ∧ (g₁.peer v).log = (g.peer v).log ∧
      g.history.acks ⊆ g₁.history.acks := by
  obtain ⟨hlead, hlead₁, p, r, call, hp, hcall, htransfer, -, -⟩ := h.begins hr
  obtain ⟨g₁, hmv⟩ := hr.step h.step
  have hr₁ := hmv.refines hr
  have hflag := (hlocked v p hp).flag.mpr ⟨i, call, hcall, htransfer⟩
  obtain ⟨p₁, hp₁, hrole₁, hterm₁⟩ := id hlead₁
  obtain ⟨e, he, het, hev, -⟩ := hr₁.led hp₁ hrole₁
  refine ⟨g₁, ⟨hr₁, Step.locked ⟨_, h.step⟩ hlocked, subset_rfl, ⟨e, he, het.trans hterm₁, hev⟩,
    ?_, le_rfl, fun _ => rfl⟩, hmv.leader_log hr hp hflag hlead hlead₁, (hmv.longer hr).acks⟩
  exact ((leaderOf_iff hr₁ hp₁).mp hlead₁).2.ge

/-- **`transfer_leadership` hands over the log that it checked.** -/
theorem transfer_hands_over (hc : Reachable m c) :
    (∀ f c₁, SendsTimeoutNow v i f t c c₁ → c₁.LeaderOf v t ∧
      ∀ c₂, Relation.ReflTransGen (HandoverStep v i t) c₁ c₂ → HandedOver m v i f t c c₁ c₂) ∧
    ∀ c', TransferReturns v i t false c c' → c'.LeaderOf v t → AcceptsWrites c' v := by
  have hlocked := hc.locked
  obtain ⟨g, hr, -⟩ := hc.refines
  refine ⟨fun f c₁ hsend => ?_, fun c' hreturn hlead => ?_⟩
  · obtain ⟨g₁, h₁, -, -⟩ := hsend.waited hr hlocked
    obtain ⟨-, hlead₁, -⟩ := hsend.begins hr
    refine ⟨hlead₁, fun c₂ hrun => ?_⟩
    obtain ⟨g₂, h₂⟩ := h₁.run hrun
    refine ⟨fun hlead c' hbefore hafter => ?_, fun hclean hlead => ?_, ?_,
      h₂.kept h₁.refines hlead₁, fun c' hreturn => ?_⟩
    · obtain ⟨g', h'⟩ := h₁.run hbefore
      exact led_throughout (fun hs => HandoverStep.goesOn hs) hafter hlead h'.refines h'.led h'.term
    · -- the group of the clean run
      obtain ⟨g, hr, hown⟩ := hclean.own
      obtain ⟨⟨p, hp, hrole, hterm⟩, -, p', r, -, hp', -, -, hrep, hindex⟩ := hsend.begins hr
      obtain rfl : p = p' := Option.some.inj (hp.symm.trans hp')
      obtain ⟨g₁, h₁, hlog, hacks⟩ := hsend.waited hr hlocked
      obtain ⟨g₂, h₂⟩ := h₁.run hrun
      have hsame := (h₂.log hlead).trans hlog
      refine h₂.refines.handed_over hlead fun hne => ?_
      rw [hsame] at hne ⊢
      exact h₂.acks (hacks (hterm ▸ hown.whole_log hr hp hrole hrep hindex hne))
    · have hwaits : c₂.handover v i = some t := by
        rcases Relation.ReflTransGen.cases_tail hrun with rfl | ⟨c, -, hstep⟩
        · exact hsend.waits
        · exact hstep.after
      obtain ⟨p, hp, hflag⟩ := h₂.locked.barred hwaits
      exact ⟨p, hp, RaftNode.submitStart_barred hflag⟩
    · obtain ⟨p, p', hp, hp', hrole, hterm, hlog, hdown, hterm'⟩ := hreturn.steps_down
      have hlead : c₂.LeaderOf v t := ⟨p, hp, hrole, hterm⟩
      obtain ⟨p₁, q, hp₁, hq, hkept⟩ := h₂.kept h₁.refines hlead₁ hlead
      obtain rfl : p = q := Option.some.inj (hp.symm.trans hq)
      exact ⟨hlead, ⟨p₁, p', hp₁, hp', hlog ▸ hkept⟩, p', hp', hdown, hterm'⟩
  · cases id hreturn with
    | answered _ _ _ _ hstep | failed _ _ hstep | missed _ _ _ hstep | unready _ _ _ hstep =>
      obtain ⟨g', hmv⟩ := hr.step hstep
      obtain ⟨p, hp, hfree⟩ := hreturn.flag_off hlocked
      exact (hmv.refines hr).acceptsWrites hp hfree hlead

end Run

/-! ## 7. A handover that succeeds -/

/-- A step that leaves the call waiting, with what it sent. -/
theorem sends_of_step {m : Members} {c₀ c₁ : Cluster} {v f : NodeId} {i : Nat} {t : Int}
    (hc : Reachable m c₀) (hstep : c₀.step (.run v (.finishRound i)) = some c₁)
    (hwaits : c₁.handover v i = some t) (htarget : c₁.rpcs.getLast?.map (·.target) = some f) :
    SendsTimeoutNow v i f t c₀ c₁ := by
  obtain ⟨g, hr, -⟩ := hc.refines
  obtain ⟨f', hsends⟩ := hr.sends hstep hwaits
  rw [hsends.sent, List.getLast?_concat] at htarget
  obtain rfl : f' = f := Option.some.inj htarget
  exact hsends

theorem not_majorityPast {c : Cluster} {t : Int}
    (h : (c.members.ids.all fun u => (c.disk u).savedState.currentTerm ≤ t) = true) :
    ¬ MajorityPast c t := by
  rintro ⟨R, ⟨hsub, hcard⟩, hpast⟩
  obtain ⟨u, hu⟩ : R.Nonempty := Finset.card_pos.mp (by omega)
  have hle := of_decide_eq_true (List.all_eq_true.mp h u (List.mem_toFinset.mp (hsub hu)))
  exact absurd (hpast u hu) (not_lt.mpr hle)

/-- Running a list of actions, in which member `v` wins no election while its table is there. -/
def cleanRuns (v : NodeId) (c : Cluster) : List Action → Option Cluster
  | [] => some c
  | a :: as => (c.step a).bind fun c' =>
    match c.process v, c'.process v with
    | some p, some p' => if p.node.WinsWithoutTable p'.node then cleanRuns v c' as else none
    | _, _ => cleanRuns v c' as

theorem cleanRuns_steps {v : NodeId} : ∀ {as : List Action} {c c' : Cluster},
    cleanRuns v c as = some c' → Relation.ReflTransGen (CleanStep v) c c'
  | [], c, c', h => by
    cases h
    exact .refl
  | a :: as, c, c', h => by
    obtain ⟨c₁, hstep, h⟩ := Option.bind_eq_some_iff.mp h
    split at h
    · rename_i p p₁ hp hp₁
      split at h
      · rename_i hwins
        refine .head ⟨⟨a, hstep⟩, fun q q' hq hq' => ?_⟩ (cleanRuns_steps h)
        cases hp.symm.trans hq
        cases hp₁.symm.trans hq'
        exact hwins
      · cases h
    · rename_i hnot
      exact .head ⟨⟨a, hstep⟩, fun q q' hq hq' => (hnot q q' hq hq').elim⟩ (cleanRuns_steps h)

theorem CleanStep.leads {v : NodeId} {c c' : Cluster}
    (h : Relation.ReflTransGen (CleanStep v) c c') : Leads c c' := by
  induction h with
  | refl => exact .refl
  | tail _ hstep ih => exact ih.tail hstep.1

/-- The leader of the first write hands over to the follower that has it. -/
def handingOver : List Action := [
  .run "a" (.transferLeadership (some "b")),
  .run "a" (.lockReplication 2),
  .run "a" (.beginRound 2),
  .run "a" (.submitTask 2 "b"),
  .run "a" (.workerBuild "b"),
  .run "b" (.deliver 3 3000),
  .run "a" (.workerAnswer "b" 2),
  .run "a" (.collectTask 2 "b")]

/-- Member `v` leads term `t`, as a test. -/
def leadsIn (c : Cluster) (v : NodeId) (t : Int) : Bool :=
  match c.process v with
  | some p => p.node.state.role = .leader ∧ p.node.state.currentTerm = t
  | none => false

theorem leaderOf_of_leadsIn {c : Cluster} {v : NodeId} {t : Int} (h : leadsIn c v t = true) :
    c.LeaderOf v t := by
  unfold leadsIn at h
  split at h
  · rename_i p hp
    exact ⟨p, hp, of_decide_eq_true h⟩
  · cases h

/-- Answer `j` makes the waiting call `i` of `v` return `True`. -/
def succeeds (c : Cluster) (v : NodeId) (i j : Nat) (t : Int) : Bool :=
  match c.process v, c.answers[j]? with
  | some p, some ⟨rpc, .timeoutNow response⟩ =>
    match p.calls i, (RaftNode.transferResponse t response p.node).result with
    | some (.transferWaiting term rpc'), .ok result => term = t ∧ rpc = rpc' ∧ result = true
    | _, _ => false
  | _, _ => false

theorem returns_of_succeeds {c c' : Cluster} {v : NodeId} {i j : Nat} {t : Int}
    (h : succeeds c v i j t = true) (hstep : c.step (.run v (.transferAnswer i j)) = some c') :
    TransferReturns v i t true c c' := by
  unfold succeeds at h
  split at h
  · rename_i p rpc response hp hanswer
    split at h
    · rename_i term rpc' result hcall hresult
      obtain ⟨rfl, rfl, rfl⟩ := of_decide_eq_true h
      exact .answered hp hcall hanswer hresult hstep
    · cases h
  · cases h

theorem transfer_hands_over_firstWrite : ∃ c₀ c₁ c₂ c₃ c₄, Reachable threeMembers c₀ ∧
    SendsTimeoutNow "a" 2 "b" 1 c₀ c₁ ∧ HandedOver threeMembers "a" 2 "b" 1 c₀ c₁ c₂ ∧
    HasAllOf c₂ "b" "a" ∧ TransferReturns "a" 2 1 true c₂ c₃ ∧
    LogKept "a" c₁ c₃ ∧ TransferReturns "a" 2 1 false c₂ c₄ ∧ AcceptsWrites c₄ "a" := by
  have hrun : (((Cluster.initial threeMembers).runs (firstRound.take 5)).bind fun c =>
      (cleanRuns "a" c (firstRound.drop 5 ++ firstCommit :: handingOver)).bind fun c₀ =>
        (c₀.step (.run "a" (.finishRound 2))).bind fun c₁ =>
          (c₁.step (.run "b" (.deliver 4 3000))).bind fun c₂ =>
            (c₂.step (.run "a" (.transferAnswer 2 3))).bind fun c₃ =>
              (c₂.step (.run "a" (.transferFail 2))).map fun c₄ =>
                (c₁.handover "a" 2, c₁.rpcs.getLast?.map (·.target), c₂.handover "a" 2,
                  (c.process "a").all (·.node.replication.isNone) && leadsIn c₂ "a" 1 &&
                    (c₂.members.ids.all fun u => (c₂.disk u).savedState.currentTerm ≤ 1) &&
                      succeeds c₂ "a" 2 3 1 && leadsIn c₄ "a" 1)) =
          some (some 1, some "b", some 1, true) := by decide +kernel
  obtain ⟨c, h, hrun⟩ := Option.bind_eq_some_iff.mp hrun
  obtain ⟨c₀, h₀, hrun⟩ := Option.bind_eq_some_iff.mp hrun
  obtain ⟨c₁, h₁, hrun⟩ := Option.bind_eq_some_iff.mp hrun
  obtain ⟨c₂, h₂, hrun⟩ := Option.bind_eq_some_iff.mp hrun
  obtain ⟨c₃, h₃, hrun⟩ := Option.bind_eq_some_iff.mp hrun
  obtain ⟨c₄, h₄, hend⟩ := Option.map_eq_some_iff.mp hrun
  simp only [Prod.mk.injEq, Bool.and_eq_true] at hend
  obtain ⟨hwaits, htarget, hwaits', ⟨⟨⟨hnone, hlead⟩, hterms⟩, hsucceeds⟩, hlead'⟩ := hend
  have hreach : Reachable threeMembers c := runs_leads h
  have hreach₀ : Reachable threeMembers c₀ := hreach.trans (CleanStep.leads (cleanRuns_steps h₀))
  have hrenewed : TableRenewed threeMembers "a" c₀ := by
    refine ⟨c, hreach, fun p hp => ?_, cleanRuns_steps h₀⟩
    rw [hp] at hnone
    exact Option.isNone_iff_eq_none.mp hnone
  have hsends := sends_of_step hreach₀ h₁ hwaits htarget
  have hhands := ((transfer_hands_over hreach₀).1 "b" c₁ hsends).2 c₂
    (.single ⟨⟨_, h₂⟩, hwaits, hwaits'⟩)
  have hreturns := returns_of_succeeds hsucceeds h₃
  obtain ⟨p, rpc, hp, hcall⟩ := Cluster.handover_eq_some.mp hwaits'
  have hfails : TransferReturns "a" 2 1 false c₂ c₄ := .failed hp hcall h₄
  have hreach₂ : Reachable threeMembers c₂ := (hreach₀.tail ⟨_, h₁⟩).tail ⟨_, h₂⟩
  have hall := (hhands.complete hrenewed (leaderOf_of_leadsIn hlead)).resolve_right
    (not_majorityPast hterms)
  exact ⟨c₀, c₁, c₂, c₃, c₄, hreach₀, hsends, hhands, hall, hreturns,
    (hhands.returns c₃ hreturns).2.1, hfails,
    (transfer_hands_over hreach₂).2 c₄ hfails (leaderOf_of_leadsIn hlead')⟩

/-! ## 8. Handovers that leave entries behind -/

/-- Member `v` has an entry in its log that the running member `f`, which has compacted nothing
there, lacks. -/
def lacks (c : Cluster) (f v : NodeId) : Bool :=
  match c.process v, c.process f with
  | some p, some q => p.node.log.entries.any fun e => p.node.log.get e.index = some e ∧
      q.node.log.get e.index ≠ some e ∧ q.node.snapshot.lastIncludedIndex < e.index
  | _, _ => false

theorem not_hasAllOf {c : Cluster} {f v : NodeId} (h : lacks c f v = true) : ¬ HasAllOf c f v := by
  unfold lacks at h
  split at h
  · rename_i p q hp hq
    obtain ⟨e, -, he⟩ := List.any_eq_true.mp h
    obtain ⟨hget, hnot, hbelow⟩ := of_decide_eq_true he
    intro hall
    rcases (hall p e hp (Or.inl hget)).2 q hq with hhas | hreflects
    · exact hnot hhas
    · exact absurd hreflects.below (not_le.mpr hbelow)
  · cases h

/-- Five members. -/
def fiveMembers : Members := { ids := ["a", "b", "c", "d", "e"] }

/-- The leader of term 1 has copied its write to `b` and is told to hand over to it. -/
def checkedCopy : List Action := [
  .start "a" 1500, .start "b" 3000, .start "c" 3000, .start "d" 3000, .start "e" 3000,
  .elapse 1500,
  .run "a" (.tick 1500),
  .run "c" (.deliver 1 3000), .run "d" (.deliver 2 3000),
  .run "a" (.voteAnswer 0), .run "a" (.voteAnswer 1),
  .run "a" (.submitCommands [{ operation := .put, key := "x", value := some "1" }]),
  .run "a" (.transferLeadership (some "b")),
  .run "a" (.lockReplication 1),
  .run "a" (.beginRound 1),
  .run "a" (.submitTask 1 "b"),
  .run "a" (.workerBuild "b"),
  .run "b" (.deliver 4 3000),
  .run "a" (.workerAnswer "b" 2),
  .run "a" (.collectTask 1 "b")]

/-- Before it looks at its table, `c` is elected in term 2 and overwrites the copy. -/
def overtaken : List Action := [
  .elapse 3000,
  .run "c" (.tick 1500),
  .run "d" (.deliver 7 3000), .run "e" (.deliver 8 3000),
  .run "c" (.voteAnswer 3), .run "c" (.voteAnswer 4),
  .run "c" (.submitCommands [{ operation := .put, key := "x", value := some "2" }]),
  .run "c" (.lockReplication 0),
  .run "c" (.beginRound 0),
  .run "c" (.submitTask 0 "b"),
  .run "c" (.workerBuild "b"),
  .run "b" (.deliver 9 3000)]

theorem deposed_handover : ∃ c₀ c₁, Reachable fiveMembers c₀ ∧
    SendsTimeoutNow "a" 1 "b" 1 c₀ c₁ ∧ ¬ HasAllOf c₁ "b" "a" := by
  have hrun : (((Cluster.initial fiveMembers).runs (checkedCopy ++ overtaken)).bind fun c₀ =>
      (c₀.step (.run "a" (.finishRound 1))).map fun c₁ =>
        (c₁.handover "a" 1, c₁.rpcs.getLast?.map (·.target), lacks c₁ "b" "a")) =
          some (some 1, some "b", true) := by decide +kernel
  obtain ⟨c₀, h₀, hrun⟩ := Option.bind_eq_some_iff.mp hrun
  obtain ⟨c₁, h₁, hend⟩ := Option.map_eq_some_iff.mp hrun
  obtain ⟨hwaits, hend⟩ := Prod.mk.inj hend
  obtain ⟨htarget, hlacks⟩ := Prod.mk.inj hend
  have hreach : Reachable fiveMembers c₀ := runs_leads h₀
  exact ⟨c₀, c₁, hreach, sends_of_step hreach h₁ hwaits htarget, not_hasAllOf hlacks⟩

/-- `c` is elected in term 1, `a` in term 2. -/
def copied : List Action := [
  .start "a" 3000, .start "b" 3000, .start "c" 1500, .start "d" 3000, .start "e" 3000,
  .elapse 1500,
  .run "c" (.tick 1500),
  .run "d" (.deliver 2 3000), .run "e" (.deliver 3 3000),
  .run "c" (.voteAnswer 0), .run "c" (.voteAnswer 1),
  .run "c" .sendHeartbeats,
  .run "c" (.lockReplication 0),
  .run "c" (.beginRound 0),
  .run "c" (.submitTask 0 "a"),
  .run "c" (.workerBuild "a"),
  .run "a" (.deliver 4 1500),
  .run "c" (.workerAnswer "a" 2),
  .run "c" (.finishRound 0),
  .elapse 1500,
  .run "a" (.tick 1500),
  .run "c" (.deliver 6 1500), .run "d" (.deliver 7 3000),
  .run "a" (.voteAnswer 3), .run "a" (.voteAnswer 4),
  .run "a" (.submitCommands [{ operation := .put, key := "x", value := some "1" }]),
  .run "a" (.lockReplication 0),
  .run "a" (.beginRound 0),
  .run "a" (.submitTask 0 "b"),
  .run "a" (.workerBuild "b"),
  .run "b" (.deliver 9 3000),
  .run "a" (.workerAnswer "b" 5),
  .run "a" (.finishRound 0)]

/-- `c`, elected in term 3, tells `a` to take over and overwrites the copy at `b`. -/
def handedBack : List Action := [
  .elapse 1500,
  .run "c" (.tick 1500),
  .run "d" (.deliver 12 3000), .run "e" (.deliver 13 3000),
  .run "c" (.voteAnswer 6), .run "c" (.voteAnswer 7),
  .run "c" (.transferLeadership (some "a")),
  .run "c" (.lockReplication 2),
  .run "c" (.beginRound 2),
  .run "c" (.submitTask 2 "a"),
  .run "c" (.finishRound 2),
  .run "a" (.deliver 14 1500),
  .run "c" (.transferFail 2),
  .run "c" (.submitCommands [{ operation := .put, key := "x", value := some "2" }]),
  .run "c" (.lockReplication 4),
  .run "c" (.beginRound 4),
  .run "c" (.submitTask 4 "b"),
  .run "c" (.workerBuild "b"),
  .run "b" (.deliver 15 3000)]

/-- `a` is elected in term 4 with the table of term 2 and hands over to `b`. -/
def carriedOver : List Action := [
  .run "a" (.tick 1500),
  .run "d" (.deliver 18 3000), .run "e" (.deliver 19 3000),
  .run "a" (.voteAnswer 10), .run "a" (.voteAnswer 11),
  .run "a" (.transferLeadership (some "b")),
  .run "a" (.lockReplication 2),
  .run "a" (.beginRound 2),
  .run "a" (.submitTask 2 "b")]

theorem carried_handover : ∃ c₀ c₁, Reachable fiveMembers c₀ ∧
    SendsTimeoutNow "a" 2 "b" 4 c₀ c₁ ∧ ¬ HasAllOf c₁ "b" "a" ∧ ¬ MajorityPast c₁ 4 := by
  have hrun : (((Cluster.initial fiveMembers).runs (copied ++ handedBack ++ carriedOver)).bind
      fun c₀ => (c₀.step (.run "a" (.finishRound 2))).map fun c₁ =>
        (c₁.handover "a" 2, c₁.rpcs.getLast?.map (·.target), lacks c₁ "b" "a",
          c₁.members.ids.all fun u => (c₁.disk u).savedState.currentTerm ≤ 4)) =
            some (some 4, some "b", true, true) := by decide +kernel
  obtain ⟨c₀, h₀, hrun⟩ := Option.bind_eq_some_iff.mp hrun
  obtain ⟨c₁, h₁, hend⟩ := Option.map_eq_some_iff.mp hrun
  obtain ⟨hwaits, hend⟩ := Prod.mk.inj hend
  obtain ⟨htarget, hend⟩ := Prod.mk.inj hend
  obtain ⟨hlacks, hterms⟩ := Prod.mk.inj hend
  have hreach : Reachable fiveMembers c₀ := runs_leads h₀
  exact ⟨c₀, c₁, hreach, sends_of_step hreach h₁ hwaits htarget, not_hasAllOf hlacks,
    not_majorityPast hterms⟩

/-- **The receiver of TimeoutNow may lack entries of the sender**: where a later leader has
overwritten what it acknowledged, and where the sender's table is of an earlier term. -/
theorem handover_incomplete :
    (∃ c₀ c₁, Reachable fiveMembers c₀ ∧ SendsTimeoutNow "a" 1 "b" 1 c₀ c₁ ∧
      ¬ HasAllOf c₁ "b" "a") ∧
    ∃ c₀ c₁, Reachable fiveMembers c₀ ∧ SendsTimeoutNow "a" 2 "b" 4 c₀ c₁ ∧
      ¬ HasAllOf c₁ "b" "a" ∧ ¬ MajorityPast c₁ 4 :=
  ⟨deposed_handover, carried_handover⟩

end PyRaftKv
