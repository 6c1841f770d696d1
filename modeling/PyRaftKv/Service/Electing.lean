/-
# A quorum can elect a leader

Nothing that a run does takes away the way back.  `quorum_elects`: from every reachable state,
whatever is in the network and on the disks, the members of any quorum can restart and elect one of
them, with no step of anybody else.

The one that stands is one with the most up-to-date log, and it stands until no other member of the
quorum is in a later term.
-/
import PyRaftKv.Guarantees.Agreement
import PyRaftKv.Refinement.Locking

open Consensus

namespace PyRaftKv

open Cluster

/-! ## 1. Nodes -/

section Nodes

variable {n : RaftNode} (clock : Clock)

/-- A vote is granted to a request of a later term with an up-to-date log. -/
theorem handleRequestVote_grants {r : RequestVoteRequest} (hterm : n.state.currentTerm < r.term)
    (hlog : isCandidateLogUpToDate r.lastLogIndex r.lastLogTerm n.log.lastIndex n.log.lastTerm) :
    (RaftNode.handleRequestVote clock r n).result = .ok ⟨r.term, true⟩ ∧
      (RaftNode.handleRequestVote clock r n).node.state.currentTerm = r.term := by
  have hrun : PyRaftKv.handleRequestVote n.state r n.log.lastIndex n.log.lastTerm =
      .ok (⟨r.term, true⟩,
        { n.state.follow r.term none with votedFor := some r.candidateId }) := by
    have hnot : ¬ r.term < n.state.currentTerm := by omega
    have hvote : (n.state.follow r.term none).votedFor = none := if_pos hterm
    unfold PyRaftKv.handleRequestVote
    rw [if_neg hnot, if_pos hterm, RaftState.becomeFollower_ok none hterm.le]
    change (if _ then _ else _) = _
    rw [if_pos ⟨Or.inl hvote, hlog⟩]
    rfl
  have hdrop : ∀ n' : RaftNode, n'.dropReplication.state = n'.state := by
    intro n'
    unfold RaftNode.dropReplication
    split <;> rfl
  simp only [RaftNode.handleRequestVote, NodeM.bind_run, NodeM.get_run, NodeM.andThen_ok, hrun,
    NodeM.lift_ok_run, NodeM.modify_run, RaftNode.persistState, NodeM.persist_run, if_true,
    NodeM.pure_run, NodeM.behind_mk]
  exact ⟨trivial, congrArg RaftState.currentTerm (hdrop _)⟩

/-- A member whose timer has run out, in a group of more than one, asks for votes. -/
theorem tickStart_asks (htimer : n.timer.expired clock.now = true)
    (hquorum : 1 < n.members.quorumSize) :
    ∃ ws, RaftNode.tickStart clock n =
      ⟨.ok (some ⟨n.state.currentTerm + 1, n.state.nodeId, n.log.lastIndex, n.log.lastTerm⟩),
        { n with state := n.state.becomeCandidate, timer := .reset clock.now clock.timeout
                 election := ⟨[n.state.nodeId], true⟩ }, ws⟩ := by
  obtain ⟨request, s, timer, election, hrun, hstood⟩ := startElectionIfNeeded_stood n clock
  cases hstood with
  | early ht =>
    rw [htimer] at ht
    cases ht
  | leader hq => omega
  | candidate hq =>
    have hne : n.state.becomeCandidate.currentTerm ≠ n.state.currentTerm ∨
        n.state.becomeCandidate.votedFor ≠ n.state.votedFor := by
      left
      change n.state.currentTerm + 1 ≠ _
      omega
    have hrole : ¬ n.state.becomeCandidate.role = .leader := by
      intro h
      cases h
    simp only [RaftNode.tickStart, NodeM.bind_run, NodeM.get_run, NodeM.andThen_ok, hrun,
      NodeM.lift_ok_run, NodeM.modify_run, RaftNode.persistState, NodeM.persist_run, if_pos hne,
      if_neg hrole, NodeM.pure_run, NodeM.behind_mk]
    exact ⟨_, rfl⟩

/-- The table of a leader that has just been elected. -/
def startTable (n : RaftNode) : LeaderReplication where
  followers := n.members.others n.state.nodeId
  nextIndex := fun _ => n.log.lastIndex + 1
  matchIndex := fun _ => 0
  logObject := n.logObject

/-- What an elected node looks like. -/
def elected (n : RaftNode) : RaftNode :=
  { n with
    state := { n.state with role := .leader, leaderId := some n.state.nodeId }
    replication := some (startTable n) }

theorem initializeLeaderReplication_elects (hrole : n.state.role = .leader)
    (hnone : n.replication = none) (hmember : n.state.nodeId ∈ n.members) :
    RaftNode.initializeLeaderReplication n =
      ⟨.ok (), { n with replication := some (startTable n) }, []⟩ := by
  have hnew : LeaderReplication.new n.state n.log n.logObject n.members = .ok (startTable n) := by
    unfold LeaderReplication.new
    rw [if_neg (not_not_intro hrole), if_neg (not_not_intro hmember)]
    rfl
  unfold RaftNode.initializeLeaderReplication
  simp only [NodeM.bind_run, NodeM.get_run, NodeM.andThen_ok, NodeM.behind_nil, NodeM.ite_run,
    hrole, hnone, ne_eq, not_true_eq_false, if_false, Option.isNone_none, if_true, hnew,
    NodeM.lift_ok_run, NodeM.modify_run]

/-- In a group of one it leads at once. -/
theorem tickStart_leads (htimer : n.timer.expired clock.now = true)
    (hquorum : n.members.quorumSize ≤ 1) (hnone : n.replication = none)
    (hmember : n.state.nodeId ∈ n.members) :
    (RaftNode.tickStart clock n).node = elected { n with
      state := n.state.becomeCandidate, timer := .reset clock.now clock.timeout
      election := ⟨[n.state.nodeId], false⟩ } := by
  obtain ⟨request, s, timer, election, hrun, hstood⟩ := startElectionIfNeeded_stood n clock
  cases hstood with
  | early ht =>
    rw [htimer] at ht
    cases ht
  | candidate hq => omega
  | leader hq =>
    have hne : n.state.becomeCandidate.currentTerm ≠ n.state.currentTerm := by
      change n.state.currentTerm + 1 ≠ _
      omega
    simp only [RaftNode.tickStart, NodeM.bind_run, NodeM.get_run, NodeM.andThen_ok, hrun,
      NodeM.lift_ok_run, NodeM.modify_run, RaftNode.persistState, NodeM.persist_run,
      if_pos (Or.inl hne), if_true, NodeM.behind_nil, NodeM.behind_mk]
    rw [initializeLeaderReplication_elects]
    · rfl
    · rfl
    · exact hnone
    · exact hmember

/-- A granted vote is counted, and with a quorum of votes the candidate leads. -/
theorem tickResponse_counts {f : NodeId} {r : RequestVoteRequest} {votes : List NodeId}
    (hrole : n.state.role = .candidate) (hterm : n.state.currentTerm = r.term)
    (helection : n.election = ⟨votes, true⟩) (hf : f ∈ n.members) (hnew : f ∉ votes)
    (hnone : n.replication = none) (hmember : n.state.nodeId ∈ n.members) :
    (votes.length + 1 < n.members.quorumSize ∧
        (RaftNode.tickResponse f r ⟨r.term, true⟩ n).node =
          { n with election := ⟨f :: votes, true⟩ }) ∨
      (RaftNode.tickResponse f r ⟨r.term, true⟩ n).node =
        elected { n with election := ⟨f :: votes, false⟩ } := by
  have hadd : n.election.addVote f = ⟨f :: votes, true⟩ := by
    rw [helection, ElectionTracker.addVote, if_neg hnew]
  have hactive : n.election.active = true := by rw [helection]
  have hrecord : n.election.recordVote n.state n.members f ⟨r.term, true⟩ =
      (⟨f :: votes, true⟩ : ElectionTracker).promoteIfQuorum n.state n.members := by
    unfold ElectionTracker.recordVote
    rw [hactive, hterm, hadd]
    simp [hrole, hf]
  have hcurrent : ¬ (n.state.role ≠ .candidate ∨ n.state.currentTerm ≠ r.term) := by
    rw [not_or, not_not, not_not]
    exact ⟨hrole, hterm⟩
  by_cases hq : votes.length + 1 < n.members.quorumSize
  · have hrun : n.election.recordVote n.state n.members f ⟨r.term, true⟩ =
        .ok (false, ⟨f :: votes, true⟩, n.state) := by
      rw [hrecord]
      exact if_pos hq
    have hrest : ¬ n.state.role = .leader ∧ ¬ n.state.role = .follower := by
      rw [hrole]
      exact ⟨by decide, by decide⟩
    refine Or.inl ⟨hq, ?_⟩
    simp only [RaftNode.tickResponse, NodeM.bind_run, NodeM.get_run, NodeM.andThen_ok,
      NodeM.behind_nil, NodeM.ite_run, if_neg hcurrent, hrun, NodeM.lift_ok_run, NodeM.modify_run,
      ne_eq, not_true_eq_false, or_self, if_false, if_neg hrest.1, if_neg hrest.2, NodeM.pure_run]
  · have hrun : n.election.recordVote n.state n.members f ⟨r.term, true⟩ =
        .ok (true, ⟨f :: votes, false⟩,
          { n.state with role := .leader, leaderId := some n.state.nodeId }) := by
      rw [hrecord]
      unfold ElectionTracker.promoteIfQuorum RaftState.becomeLeader
      simp [hrole, hq]
    right
    simp only [RaftNode.tickResponse, NodeM.bind_run, NodeM.get_run, NodeM.andThen_ok,
      NodeM.behind_nil, NodeM.ite_run, if_neg hcurrent, hrun, NodeM.lift_ok_run, NodeM.modify_run,
      ne_eq, not_true_eq_false, or_self, if_false, if_true]
    rw [initializeLeaderReplication_elects]
    · rfl
    · rfl
    · exact hnone
    · exact hmember

end Nodes

/-! ## 2. Runs of some members -/

/-- Time passes, or a member in `Q` does something. -/
def Action.By (Q : List NodeId) : Action → Prop
  | .elapse _ => True
  | .start v _ | .startCrash v _ _ | .run v _ | .crash v _ _ => v ∈ Q

/-- A run in which only members in `Q` take steps. -/
def Among (Q : List NodeId) : Cluster → Cluster → Prop :=
  Relation.ReflTransGen fun c c' => ∃ a : Action, a.By Q ∧ c.step a = some c'

/-- A process without calls and workers. -/
structure Process.Fresh (p : Process) : Prop where
  futures : ∀ f, p.futures f = none
  calls : ∀ id, p.calls id = none
  lock : p.lockHolder = none
  flag : p.node.leadershipTransferInProgress = false

section Runs

variable {m : Members} {c c' : Cluster} {Q Q' : List NodeId} {u v : NodeId} {p : Process}

theorem Action.By.mono {a : Action} (h : a.By Q) (hsub : Q ⊆ Q') : a.By Q' := by
  cases a with
  | elapse => trivial
  | _ => exact hsub h

theorem Among.mono (h : Among Q c c') (hsub : Q ⊆ Q') : Among Q' c c' := by
  refine Relation.ReflTransGen.mono ?_ _ _ h
  rintro _ _ ⟨a, ha, hs⟩
  exact ⟨a, ha.mono hsub, hs⟩

theorem Among.leads (h : Among Q c c') : Leads c c' := by
  refine Relation.ReflTransGen.mono ?_ _ _ h
  rintro _ _ ⟨a, -, hs⟩
  exact ⟨a, hs⟩

theorem Among.step {a : Action} (ha : a.By Q) (hs : c.step a = some c') : Among Q c c' :=
  .single ⟨a, ha, hs⟩

/-- A step changes the process and the directory of its own member only. -/
theorem step_frame {a : Action} (ha : a.By Q) (hs : c.step a = some c') (hv : v ∉ Q) :
    c'.process v = c.process v ∧ c'.disk v = c.disk v := by
  cases a with
  | elapse ms =>
    cases hs
    exact ⟨rfl, rfl⟩
  | start u timeout =>
    have hne : v ≠ u := fun heq => hv (heq ▸ ha)
    simp only [Cluster.step] at hs
    split at hs
    · cases hs
    split at hs
    · split at hs
      · cases hs
        exact ⟨down_process_of_ne c _ hne, down_disk_of_ne c _ hne⟩
      · cases hs
        exact ⟨Function.update_of_ne hne _ _, down_disk_of_ne c _ hne⟩
    · cases hs
  | startCrash u timeout effects =>
    have hne : v ≠ u := fun heq => hv (heq ▸ ha)
    simp only [Cluster.step] at hs
    split at hs
    · cases hs
    · cases hs
      exact ⟨down_process_of_ne c _ hne, down_disk_of_ne c _ hne⟩
  | run u op =>
    have hne : v ≠ u := fun heq => hv (heq ▸ ha)
    simp only [Cluster.step] at hs
    split at hs
    · cases hs
    · obtain ⟨t, -, rfl⟩ := Option.map_eq_some_iff.mp hs
      exact ⟨finish_process_of_ne c op t hne, finish_disk_of_ne c op t hne⟩
  | crash u op effects =>
    have hne : v ≠ u := fun heq => hv (heq ▸ ha)
    simp only [Cluster.step] at hs
    split at hs
    · cases hs
    · obtain ⟨t, -, rfl⟩ := Option.map_eq_some_iff.mp hs
      exact ⟨down_process_of_ne c (t.writes.take effects) hne,
        down_disk_of_ne c (t.writes.take effects) hne⟩

/-- So does a run. -/
theorem Among.frame (h : Among Q c c') (hv : v ∉ Q) :
    c'.process v = c.process v ∧ c'.disk v = c.disk v := by
  induction h with
  | refl => exact ⟨rfl, rfl⟩
  | tail _ hs ih =>
    obtain ⟨a, ha, hs⟩ := hs
    obtain ⟨hp, hd⟩ := step_frame ha hs hv
    exact ⟨hp.trans ih.1, hd.trans ih.2⟩

theorem step_run {op : Op} {t : Turn} (hp : c.process v = some p) (ht : p.turn c v op = some t) :
    c.step (.run v op) = some (c.finish v op t) := by
  simp only [Cluster.step, hp, ht, Option.map_some]

/-- A member stops, if it is running. -/
theorem stop_one (c : Cluster) (v : NodeId) : ∃ c', Among [v] c c' ∧ c'.process v = none := by
  rcases hp : c.process v with _ | p
  · exact ⟨c, .refl, hp⟩
  · have hs : c.step (.crash v .createSnapshot 0) = some (c.down v []) := by
      simp [Cluster.step, hp, Process.turn, Op.advances, Cluster.down]
    exact ⟨_, .step List.mem_cons_self hs, down_process_self c []⟩

/-- **A member can restart** in every reachable state. -/
theorem restart_one (hc : Reachable m c) (hv : v ∈ m) : ∃ c' p, Among [v] c c' ∧
    c'.process v = some p ∧ p.Fresh ∧ p.node.replication = none := by
  obtain ⟨c₁, hstop, hdown⟩ := stop_one c v
  obtain ⟨g, hr, rfl⟩ := Reachable.refines (hc.trans hstop.leads)
  obtain ⟨hdisk, hrole⟩ := hr.down v hdown
  obtain ⟨n, ws, hinit, -, -, hnone, -⟩ := init_recovers hdisk hv hrole (hr.sound.peer v)
    (hr.peer_whole v) ⟨c₁.now, maxTimeout⟩
  have hflag : n.leadershipTransferInProgress = false := init_flag (by rw [hinit])
  have hs : c₁.step (.start v maxTimeout) = some { c₁.down v ws with
      process := Function.update c₁.process v (some { node := n }) } := by
    simp only [Cluster.step, hdown, hinit]
    exact if_pos (by decide)
  exact ⟨_, _, hstop.tail ⟨_, List.mem_cons_self, hs⟩, Function.update_self _ _ _,
    ⟨fun _ => rfl, fun _ => rfl, rfl, hflag⟩, hnone⟩

/-- So can some members, one after the other. -/
theorem restart_all (hc : Reachable m c) : ∀ {Q : List NodeId}, (∀ v ∈ Q, v ∈ m) → Q.Nodup →
    ∃ c', Among Q c c' ∧ ∀ v ∈ Q, ∃ p, c'.process v = some p ∧ p.Fresh ∧
      p.node.replication = none := by
  intro Q
  induction Q with
  | nil => exact fun _ _ => ⟨c, .refl, fun _ hv => by cases hv⟩
  | cons v Q ih =>
    intro hmem hnd
    rw [List.nodup_cons] at hnd
    obtain ⟨c₁, hrun, hup⟩ := ih (fun w hw => hmem w (List.mem_cons_of_mem _ hw)) hnd.2
    obtain ⟨c₂, p, hrun', hv, hfresh⟩ :=
      restart_one (hc.trans hrun.leads) (hmem v List.mem_cons_self)
    refine ⟨c₂, (hrun.mono (List.subset_cons_self v Q)).trans
      (hrun'.mono (by simp)), fun w hw => ?_⟩
    rcases List.mem_cons.mp hw with rfl | hw
    · exact ⟨p, hv, hfresh⟩
    · obtain ⟨q, hq, hfresh'⟩ := hup w hw
      have hne : w ∉ [v] := fun hwv => hnd.1 (List.mem_singleton.mp hwv ▸ hw)
      exact ⟨q, (hrun'.frame hne).1.trans hq, hfresh'⟩

end Runs

/-! ## 3. Standing -/

/-- Member `u` runs as `p`, has asked everybody for a vote, and counted `votes`. -/
structure Campaigns (c : Cluster) (u : NodeId) (r : RequestVoteRequest) (votes : List NodeId)
    (p : Process) : Prop where
  up : c.process u = some p
  role : p.node.state.role = .candidate
  term : p.node.state.currentTerm = r.term
  election : p.node.election = ⟨votes, true⟩
  fresh : p.Fresh
  table : p.node.replication = none
  asked : ∀ f, f ∈ c.members → f ≠ u → ⟨u, f, .requestVote r⟩ ∈ c.rpcs

/-- Member `u` runs as `p`, and has just become leader in `term`. -/
structure JustElected (c : Cluster) (u : NodeId) (term : Int) (p : Process) : Prop where
  up : c.process u = some p
  role : p.node.state.role = .leader
  term : p.node.state.currentTerm = term
  fresh : p.Fresh
  table : p.node.replication = some ⟨c.members.others u, fun _ => p.node.log.lastIndex + 1,
    fun _ => 0, p.node.logObject⟩

theorem JustElected.leads {c : Cluster} {u : NodeId} {term : Int} {p : Process}
    (h : JustElected c u term p) : LeadsIn c u term :=
  ⟨p, h.up, h.role, h.term⟩

theorem JustElected.of_node {c : Cluster} {u : NodeId} {p : Process} {n : RaftNode}
    (hup : c.process u = some p) (hnode : p.node = elected n) (hid : n.state.nodeId = u)
    (hmembers : n.members = c.members) (hfresh : p.Fresh) :
    JustElected c u n.state.currentTerm p := by
  refine ⟨hup, ?_, ?_, hfresh, ?_⟩
  · rw [hnode]
    rfl
  · rw [hnode]
    rfl
  · rw [hnode, ← hid, ← hmembers]
    rfl

section Standing

variable {m : Members} {c : Cluster} {u : NodeId} {p : Process}

/-- The request that a member sends when it stands in `term`. -/
def candidacy (u : NodeId) (log : RaftLog) (term : Int) : RequestVoteRequest :=
  ⟨term, u, log.lastIndex, log.lastTerm⟩

/-- **A member can stand**, once its timer has run out. -/
theorem stands (hc : Reachable m c) (hp : c.process u = some p) (hfresh : p.Fresh)
    (hnone : p.node.replication = none) (hq : 1 < m.quorumSize) :
    ∃ c' p', Among [u] c c' ∧ p'.node.log = p.node.log ∧
      Campaigns c' u (candidacy u p.node.log (p.node.state.currentTerm + 1)) [u] p' := by
  obtain ⟨g, hr, rfl⟩ := hc.refines
  have hu := hr.up u p hp
  -- time passes until the timer has run out
  set c₁ : Cluster := { c with now := c.now + p.node.timer.deadline } with hc₁
  have helapse : c.step (.elapse p.node.timer.deadline) = some c₁ := rfl
  have htimer : p.node.timer.expired c₁.now = true := by
    refine decide_eq_true ?_
    change p.node.timer.deadline ≤ c.now + p.node.timer.deadline
    omega
  obtain ⟨ws, htick⟩ := tickStart_asks ⟨c₁.now, maxTimeout⟩ htimer
    (by rw [hu.members]; exact hq)
  have hturn : p.turn c₁ u (.tick maxTimeout) = some {
      process := p.after (RaftNode.tickStart ⟨c₁.now, maxTimeout⟩ p.node)
      writes := (RaftNode.tickStart ⟨c₁.now, maxTimeout⟩ p.node).writes
      sends := (p.node.members.others u).map fun f => (f, .requestVote
        (candidacy u p.node.log (p.node.state.currentTerm + 1))) } := by
    simp only [Process.turn, htick, hu.stateId]
    exact if_pos (by decide)
  have hnode : (p.after (RaftNode.tickStart ⟨c₁.now, maxTimeout⟩ p.node)).node = { p.node with
      state := p.node.state.becomeCandidate, timer := .reset c₁.now maxTimeout
      election := ⟨[u], true⟩ } := by
    rw [Process.after, htick, hu.stateId]
  have hs := step_run (c := c₁) hp hturn
  have hstep : Action.By [u] (.elapse p.node.timer.deadline) := trivial
  refine ⟨_, _, (Among.step hstep helapse).tail ⟨_, List.mem_cons_self, hs⟩, ?_,
    finish_process_self c₁ _ _, ?_, ?_, ?_,
    ⟨hfresh.futures, hfresh.calls, hfresh.lock, ?_⟩, ?_, ?_⟩
  · rw [hnode]
  · rw [hnode]
    rfl
  · rw [hnode]
    rfl
  · rw [hnode]
  · rw [hnode]
    exact hfresh.flag
  · rw [hnode]
    exact hnone
  · intro f hf hne
    refine List.mem_append_right _ (List.mem_map.mpr ⟨(f, _), ?_, rfl⟩)
    refine List.mem_map.mpr ⟨f, ?_, rfl⟩
    rw [hu.members]
    exact List.mem_filter.mpr ⟨hf, decide_eq_true hne⟩

/-- It can stand again, so in as late a term as it takes. -/
theorem stands_again (hc : Reachable m c) (hp : c.process u = some p) (hfresh : p.Fresh)
    (hnone : p.node.replication = none) (hq : 1 < m.quorumSize) (k : Nat) :
    ∃ c' p', Among [u] c c' ∧ p'.node.log = p.node.log ∧
      Campaigns c' u (candidacy u p.node.log (p.node.state.currentTerm + k + 1)) [u] p' := by
  induction k with
  | zero => simpa using stands hc hp hfresh hnone hq
  | succ k ih =>
    obtain ⟨c₁, p₁, hrun, hlog, h₁⟩ := ih
    obtain ⟨c₂, p₂, hrun', hlog', h₂⟩ := stands (hc.trans hrun.leads) h₁.up h₁.fresh h₁.table hq
    have hnext : p.node.state.currentTerm + (k + 1 : Nat) + 1 =
        p.node.state.currentTerm + k + 1 + 1 := by omega
    have hterm : p₁.node.state.currentTerm = p.node.state.currentTerm + k + 1 := h₁.term
    rw [hlog, hterm] at h₂
    rw [hnext]
    exact ⟨c₂, p₂, hrun.trans hrun', hlog'.trans hlog, h₂⟩

/-- A member that is alone leads as soon as its timer runs out. -/
theorem stands_alone (hc : Reachable m c) (hp : c.process u = some p) (hfresh : p.Fresh)
    (hnone : p.node.replication = none) (hq : m.quorumSize ≤ 1) :
    ∃ c' term p', Among [u] c c' ∧ JustElected c' u term p' := by
  obtain ⟨g, hr, rfl⟩ := hc.refines
  have hu := hr.up u p hp
  set c₁ : Cluster := { c with now := c.now + p.node.timer.deadline } with hc₁
  have helapse : c.step (.elapse p.node.timer.deadline) = some c₁ := rfl
  have htimer : p.node.timer.expired c₁.now = true := by
    refine decide_eq_true ?_
    change p.node.timer.deadline ≤ c.now + p.node.timer.deadline
    omega
  have hleads := tickStart_leads ⟨c₁.now, maxTimeout⟩ htimer
    (by rw [hu.members]; exact hq) hnone (by rw [hu.stateId, hu.members]; exact hu.member)
  set o := RaftNode.tickStart ⟨c₁.now, maxTimeout⟩ p.node with ho
  obtain ⟨t, hturn, hprocess⟩ : ∃ t, p.turn c₁ u (.tick maxTimeout) = some t ∧
      t.process = p.after o := by
    simp only [Process.turn]
    exact ⟨_, if_pos (by decide), rfl⟩
  have hnode : t.process.node = o.node := by rw [hprocess]; rfl
  have hstep : Action.By [u] (.elapse p.node.timer.deadline) := trivial
  refine ⟨_, _, t.process, (Among.step hstep helapse).tail
    ⟨_, List.mem_cons_self, step_run hp hturn⟩, JustElected.of_node (finish_process_self c₁ _ _)
    (hnode.trans hleads) hu.stateId hu.members ?_⟩
  rw [hprocess]
  refine ⟨hfresh.futures, hfresh.calls, hfresh.lock, ?_⟩
  change o.node.leadershipTransferInProgress = false
  rw [hleads]
  exact hfresh.flag

end Standing

/-! ## 4. Winning -/

section Winning

variable {m : Members} {c : Cluster} {u f : NodeId} {p : Process} {r : RequestVoteRequest}
  {votes voters : List NodeId}

/-- A member that will grant its vote. -/
def Willing (c : Cluster) (r : RequestVoteRequest) (f : NodeId) : Prop :=
  ∃ q, c.process f = some q ∧ q.node.state.currentTerm < r.term ∧
    isCandidateLogUpToDate r.lastLogIndex r.lastLogTerm q.node.log.lastIndex q.node.log.lastTerm

/-- The member is running, in no later term. -/
def NotAhead (c : Cluster) (term : Int) (v : NodeId) : Prop :=
  ∃ q, c.process v = some q ∧ q.node.state.currentTerm ≤ term

/-- **A vote**: it is given, and it is counted. -/
theorem Campaigns.vote (hc : Reachable m c) (h : Campaigns c u r votes p) (hf : f ∈ m)
    (hne : f ≠ u) (hnew : f ∉ votes) (hw : Willing c r f) :
    ∃ c' p', Among [u, f] c c' ∧ (JustElected c' u r.term p' ∨
        (votes.length + 1 < m.quorumSize ∧ Campaigns c' u r (f :: votes) p')) ∧
      NotAhead c' r.term f := by
  obtain ⟨g, hr, rfl⟩ := hc.refines
  have hp := h.up
  obtain ⟨q, hq, hold, hlog⟩ := hw
  have hu := hr.up u p hp
  obtain ⟨i, hi⟩ := List.getElem?_of_mem (h.asked f hf hne)
  -- the member handles the request
  obtain ⟨hresult, hgranted⟩ := handleRequestVote_grants ⟨c.now, maxTimeout⟩ hold hlog
  set o := RaftNode.handleRequestVote ⟨c.now, maxTimeout⟩ r q.node with ho
  have hdeliver : q.turn c f (.deliver i maxTimeout) = some {
      process := q.after o, writes := o.writes
      answer := some ⟨i, .requestVote ⟨r.term, true⟩⟩ } := by
    simp only [Process.turn, hi]
    refine (if_pos ⟨trivial, by decide, by decide⟩).trans ?_
    simp only [Process.deliver, ← ho, hresult]
    rfl
  have hs := step_run hq hdeliver
  set c₁ := c.finish f (.deliver i maxTimeout) ⟨q.after o, o.writes, [],
    some ⟨i, .requestVote ⟨r.term, true⟩⟩, []⟩ with hc₁
  have hp₁ : c₁.process u = some p := (finish_process_of_ne c _ _ hne.symm).trans hp
  have hrpc : c₁.rpcs[i]? = some ⟨u, f, .requestVote r⟩ := by
    have hrpcs : c₁.rpcs = c.rpcs := List.append_nil _
    rw [hrpcs, hi]
  have hanswer : c₁.answers[c.answers.length]? = some ⟨i, .requestVote ⟨r.term, true⟩⟩ := by
    have hanswers : c₁.answers = c.answers ++ [⟨i, .requestVote ⟨r.term, true⟩⟩] := rfl
    rw [hanswers, List.getElem?_concat_length]
  -- the candidate counts the vote
  have hcount := tickResponse_counts h.role h.term h.election (by rwa [hu.members]) hnew h.table
    (by rw [hu.stateId, hu.members]; exact hu.member)
  set o' := RaftNode.tickResponse f r ⟨r.term, true⟩ p.node with ho'
  have hturn : p.turn c₁ u (.voteAnswer c.answers.length) =
      some { process := p.after o', writes := o'.writes } := by
    simp only [Process.turn, hanswer, hrpc]
    exact if_neg (not_not_intro rfl)
  have hs' := step_run hp₁ hturn
  have hby : Action.By [u, f] (.run f (.deliver i maxTimeout)) := by simp [Action.By]
  have hby' : Action.By [u, f] (.run u (.voteAnswer c.answers.length)) := by simp [Action.By]
  have hself := finish_process_self c₁ (v := u) (.voteAnswer c.answers.length)
    { process := p.after o', writes := o'.writes }
  refine ⟨_, p.after o', (Among.step hby hs).tail ⟨_, hby', hs'⟩, ?_, q.after o, ?_, hgranted.le⟩
  · rcases hcount with ⟨hlen, hnode⟩ | hnode
    · rw [hu.members] at hlen
      refine Or.inr ⟨hlen, hself, ?_, ?_, ?_, ⟨h.fresh.futures, h.fresh.calls, h.fresh.lock, ?_⟩,
        ?_, fun w hw hwu => ?_⟩
      · rw [Process.node_after, hnode]
        exact h.role
      · rw [Process.node_after, hnode]
        exact h.term
      · rw [Process.node_after, hnode]
      · rw [Process.node_after, hnode]
        exact h.fresh.flag
      · rw [Process.node_after, hnode]
        exact h.table
      · exact List.mem_append_left _ (List.mem_append_left _ (h.asked w hw hwu))
    · have hfresh : (p.after o').Fresh := by
        refine ⟨h.fresh.futures, h.fresh.calls, h.fresh.lock, ?_⟩
        rw [Process.node_after, hnode]
        exact h.fresh.flag
      have hwon := JustElected.of_node hself ((Process.node_after p o').trans hnode) hu.stateId
        hu.members hfresh
      rw [h.term] at hwon
      exact Or.inl hwon
  · exact (finish_process_of_ne c₁ _ _ hne).trans (finish_process_self c _ _)

/-- **Enough votes win.**  Members that are willing to vote vote one after the other, until the
candidate leads. -/
theorem Campaigns.wins : ∀ {voters votes : List NodeId} {c : Cluster} {p : Process},
    Reachable m c → Campaigns c u r votes p →
    (∀ f ∈ voters, f ∈ m ∧ f ≠ u ∧ f ∉ votes ∧ Willing c r f) → voters.Nodup →
    votes.length < m.quorumSize → m.quorumSize ≤ votes.length + voters.length →
    ∃ c' p', Among (u :: voters) c c' ∧ JustElected c' u r.term p' ∧
      ∀ f ∈ voters, NotAhead c' r.term f := by
  intro voters
  induction voters with
  | nil =>
    intro votes c p _ _ _ _ hlt hle
    rw [List.length_nil] at hle
    omega
  | cons f voters ih =>
    intro votes c p hc h hvoters hnd hlt hle
    rw [List.nodup_cons] at hnd
    obtain ⟨hf, hne, hnew, hwilling⟩ := hvoters f List.mem_cons_self
    obtain ⟨c₁, p₁, hrun, hwon, hf₁⟩ := h.vote hc hf hne hnew hwilling
    have hrest : ∀ w ∈ voters, c₁.process w = c.process w := by
      intro w hw
      refine (hrun.frame ?_).1
      rw [List.mem_cons, List.mem_singleton]
      rintro (heq | heq)
      · exact (hvoters w (List.mem_cons_of_mem _ hw)).2.1 heq
      · exact hnd.1 (heq ▸ hw)
    have hsub : [u, f] ⊆ u :: f :: voters :=
      List.cons_subset_cons u (List.cons_subset_cons f (List.nil_subset voters))
    rcases hwon with hleads | ⟨hlt₁, h₁⟩
    · refine ⟨c₁, p₁, hrun.mono hsub, hleads, fun w hw => ?_⟩
      rcases List.mem_cons.mp hw with rfl | hw
      · exact hf₁
      · obtain ⟨q, hq, hterm, -⟩ := (hvoters w (List.mem_cons_of_mem _ hw)).2.2.2
        exact ⟨q, (hrest w hw).trans hq, hterm.le⟩
    · have hvoters₁ : ∀ w ∈ voters, w ∈ m ∧ w ≠ u ∧ w ∉ f :: votes ∧ Willing c₁ r w := by
        intro w hw
        obtain ⟨hwm, hwu, hwv, q, hq, hterm, hlog⟩ := hvoters w (List.mem_cons_of_mem _ hw)
        refine ⟨hwm, hwu, ?_, q, (hrest w hw).trans hq, hterm, hlog⟩
        rw [List.mem_cons, not_or]
        exact ⟨fun heq => hnd.1 (heq ▸ hw), hwv⟩
      obtain ⟨c₂, p₂, hrun', hleads, hterms⟩ := ih (hc.trans hrun.leads) h₁ hvoters₁
        hnd.2 hlt₁ (by rw [List.length_cons] at hle ⊢; omega)
      have hsub' : u :: voters ⊆ u :: f :: voters :=
        List.cons_subset_cons u (List.subset_cons_self f voters)
      refine ⟨c₂, p₂, (hrun.mono hsub).trans (hrun'.mono hsub'), hleads, fun w hw => ?_⟩
      rcases List.mem_cons.mp hw with rfl | hw
      · obtain ⟨q, hq, hterm⟩ := hf₁
        refine ⟨q, (hrun'.frame ?_).1.trans hq, hterm⟩
        rw [List.mem_cons, not_or]
        exact ⟨hne, hnd.1⟩
      · exact hterms w hw

end Winning

/-! ## 5. A quorum -/

section Quorum

variable {m : Members} {c : Cluster} {Q : List NodeId} {u : NodeId}

/-- The end of a member's log, terms before indexes. -/
def logEnd (c : Cluster) (v : NodeId) : ℤ ×ₗ ℤ :=
  toLex ((c.process v).elim (0, 0) fun p => (p.node.log.lastTerm, p.node.log.lastIndex))

theorem upToDate_iff {index term index' term' : Int} :
    isCandidateLogUpToDate index term index' term' = true ↔
      toLex (term', index') ≤ toLex (term, index) := by
  rw [Prod.Lex.toLex_le_toLex]
  unfold isCandidateLogUpToDate
  split
  · simp only [decide_eq_true_eq]
    omega
  · simp only [decide_eq_true_eq]
    omega

/-- Some member's log is as up to date as everybody's. -/
theorem exists_best (hQ : Q ≠ []) (hup : ∀ v ∈ Q, ∃ p, c.process v = some p) :
    ∃ u ∈ Q, ∃ p, c.process u = some p ∧ ∀ v ∈ Q, ∀ q, c.process v = some q →
      isCandidateLogUpToDate p.node.log.lastIndex p.node.log.lastTerm
        q.node.log.lastIndex q.node.log.lastTerm := by
  obtain ⟨u, hu, hbest⟩ := Q.toFinset.exists_max_image (logEnd c) (by simpa using hQ)
  rw [List.mem_toFinset] at hu
  obtain ⟨p, hp⟩ := hup u hu
  refine ⟨u, hu, p, hp, fun v hv q hq => upToDate_iff.mpr ?_⟩
  have hle := hbest v (List.mem_toFinset.mpr hv)
  simpa only [logEnd, hp, hq, Option.elim_some] using hle

/-- Some term is later than all that are on disk. -/
theorem exists_later (c : Cluster) (vs : List NodeId) (term : Int) :
    ∃ k : Nat, ∀ v ∈ vs, (c.disk v).savedState.currentTerm < term + k + 1 := by
  induction vs with
  | nil => exact ⟨0, fun v hv => by cases hv⟩
  | cons w vs ih =>
    obtain ⟨k, hk⟩ := ih
    refine ⟨k + ((c.disk w).savedState.currentTerm - term).toNat, fun v hv => ?_⟩
    rcases List.mem_cons.mp hv with rfl | hv
    · push_cast
      omega
    · have := hk v hv
      push_cast
      omega

/-- The data directory of a running member is in its node's term. -/
theorem saved_term (hc : Reachable m c) {p : Process} (hp : c.process u = some p) :
    (c.disk u).savedState.currentTerm = p.node.state.currentTerm := by
  obtain ⟨g, hr, rfl⟩ := hc.refines
  rw [(hr.up u p hp).saved.state]
  rfl

/-- In a group of one, everybody is the same. -/
theorem alone (hq : m.quorumSize ≤ 1) {v : NodeId} (hu : u ∈ m) (hv : v ∈ m) : v = u := by
  have hsize : m.ids.length ≤ 1 := by
    unfold Members.quorumSize Members.size at hq
    omega
  obtain ⟨w, hw⟩ : ∃ w, ∀ x ∈ m.ids, x = w := by
    rcases hids : m.ids with _ | ⟨w, _ | ⟨w', ids⟩⟩
    · exact ⟨u, fun x hx => by cases hx⟩
    · exact ⟨w, fun x hx => List.mem_singleton.mp hx⟩
    · rw [hids] at hsize
      simp at hsize
  exact (hw v hv).trans (hw u hu).symm

/-- A leader that a quorum has elected, and no member is in a later term. -/
structure InOffice (Q : List NodeId) (c c' : Cluster) (u : NodeId) (term : Int) (p : Process) :
    Prop where
  among : Among Q c c'
  mem : u ∈ Q
  elected : JustElected c' u term p
  up : ∀ v ∈ Q, ∃ q, c'.process v = some q
  highest : ∀ v ∈ c.members, (c'.disk v).savedState.currentTerm ≤ term

/-- The members of a quorum restart, and elect one of them in a term of its own. -/
theorem quorum_recovers (hc : Reachable m c) (hnd : Q.Nodup) (hmem : ∀ v ∈ Q, v ∈ m)
    (hq : m.quorumSize ≤ Q.length) : ∃ c' u term p, InOffice Q c c' u term p := by
  obtain ⟨c₁, hrun, hup⟩ := restart_all hc hmem hnd
  have hc₁ : Reachable m c₁ := hc.trans hrun.leads
  have hmembers : c.members = m := by
    obtain ⟨g, -, hm⟩ := hc.refines
    exact hm
  have hQ : Q ≠ [] := by
    rintro rfl
    simp [Members.quorumSize] at hq
  obtain ⟨u, hu, p, hp, hbest⟩ := exists_best hQ fun v hv =>
    (hup v hv).imp fun _ h => h.1
  obtain ⟨hfresh, hnone⟩ : p.Fresh ∧ p.node.replication = none := by
    obtain ⟨p', hp', hfresh⟩ := hup u hu
    obtain rfl := Option.some.inj (hp.symm.trans hp')
    exact hfresh
  by_cases halone : m.quorumSize ≤ 1
  · obtain ⟨c₂, term, p₂, hrun', hleads⟩ := stands_alone hc₁ hp hfresh hnone halone
    have hc₂ : Reachable m c₂ := hc₁.trans hrun'.leads
    refine ⟨c₂, u, term, p₂, hrun.trans (hrun'.mono (by simpa using hu)), hu, hleads,
      fun v hv => ?_, fun v hv => ?_⟩
    · obtain rfl := alone halone (hmem u hu) (hmem v hv)
      exact ⟨p₂, hleads.up⟩
    · obtain rfl := alone halone (hmem u hu) (hmembers ▸ hv)
      exact ((saved_term hc₂ hleads.up).trans hleads.term).le
  · obtain ⟨k, hk⟩ := exists_later c₁ m.ids p.node.state.currentTerm
    obtain ⟨c₂, p₂, hrun', -, hasks⟩ :=
      stands_again hc₁ hp hfresh hnone (not_le.mp halone) k
    have hvoters : ∀ f ∈ Q.erase u, f ∈ m ∧ f ≠ u ∧ f ∉ [u] ∧
        Willing c₂ (candidacy u p.node.log (p.node.state.currentTerm + k + 1)) f := by
      intro f hf
      obtain ⟨hne, hfQ⟩ := hnd.mem_erase_iff.mp hf
      have hnot : f ∉ [u] := fun h => hne (List.mem_singleton.mp h)
      obtain ⟨q, hq, -⟩ := hup f hfQ
      refine ⟨hmem f hfQ, hne, hnot, q, (hrun'.frame hnot).1.trans hq, ?_, hbest f hfQ q hq⟩
      exact saved_term hc₁ hq ▸ hk f (hmem f hfQ)
    have hlen : m.quorumSize ≤ [u].length + (Q.erase u).length := by
      rw [List.length_erase_of_mem hu, List.length_singleton]
      omega
    obtain ⟨c₃, p₃, hrun₃, hleads, hterms⟩ := hasks.wins (hc₁.trans hrun'.leads) hvoters
      (hnd.erase u) (not_le.mp halone) hlen
    have hc₃ : Reachable m c₃ := (hc₁.trans hrun'.leads).trans hrun₃.leads
    have hsub : u :: Q.erase u ⊆ Q := List.cons_subset.mpr ⟨hu, List.erase_subset⟩
    have hrun₂ : Among Q c₁ c₃ := (hrun'.mono (by simpa using hu)).trans (hrun₃.mono hsub)
    have hall : ∀ v ∈ Q, NotAhead c₃ (p.node.state.currentTerm + k + 1) v := by
      intro v hv
      by_cases hvu : v = u
      · subst hvu
        exact ⟨p₃, hleads.up, hleads.term.le⟩
      · exact hterms v (hnd.mem_erase_iff.mpr ⟨hvu, hv⟩)
    refine ⟨c₃, u, _, p₃, hrun.trans hrun₂, hu, hleads, fun v hv => ?_, fun v hv => ?_⟩
    · exact (hall v hv).imp fun _ h => h.1
    · by_cases hvQ : v ∈ Q
      · obtain ⟨q, hq, hterm⟩ := hall v hvQ
        exact (saved_term hc₃ hq).trans_le hterm
      · rw [(hrun₂.frame hvQ).2]
        exact (hk v (hmembers ▸ hv)).le

/-- **Any quorum can elect a leader**, from every reachable state and with no step of anybody else.
Its members are then running, and none of them is in a later term than the leader. -/
theorem quorum_elects (hc : Reachable m c) (hnd : Q.Nodup) (hmem : ∀ v ∈ Q, v ∈ m)
    (hq : m.quorumSize ≤ Q.length) :
    ∃ c' u term, Among Q c c' ∧ u ∈ Q ∧ LeadsIn c' u term ∧
      ∀ v ∈ Q, ∃ q, c'.process v = some q ∧ q.node.state.currentTerm ≤ term := by
  have hmembers : c.members = m := by
    obtain ⟨g, -, hm⟩ := hc.refines
    exact hm
  obtain ⟨c', u, term, p, h⟩ := quorum_recovers hc hnd hmem hq
  refine ⟨c', u, term, h.among, h.mem, h.elected.leads, fun v hv => ?_⟩
  obtain ⟨q, hq⟩ := h.up v hv
  exact ⟨q, hq, (saved_term (hc.trans h.among.leads) hq).symm.trans_le
    (h.highest v (hmembers ▸ hmem v hv))⟩

end Quorum

/-- Behind the first write, the two followers can do without the leader. -/
theorem quorum_elects_firstWrite : ∃ c' u term, Among ["b", "c"] afterFirstWrite c' ∧
    u ∈ ["b", "c"] ∧ LeadsIn c' u term ∧
      ∀ v ∈ ["b", "c"], ∃ q, c'.process v = some q ∧ q.node.state.currentTerm ≤ term :=
  quorum_elects afterFirstWrite_reachable (by decide) (by decide) (by decide)

end PyRaftKv
