/-
# A quorum can serve its clients

Behind `quorum_elects`: the leader that a quorum has elected can also take a client's commands,
bring the others of the quorum to its log, commit, and answer `True`, with no step of anybody else
(`quorum_serves`).  The run is one the code can take: each round asks every follower before it
waits, and the one that commits collects what the quorum has answered.

The loop of `_replicate_to_follower` does not always end (`replication_livelocks`).  It ends here
for two reasons.  The table of a leader that has just been elected starts above everything it has,
and no member is in a later term, so the leader has all that any follower has compacted away.
-/
import PyRaftKv.Guarantees.CommitRule
import PyRaftKv.Guarantees.Convergence
import PyRaftKv.Guarantees.Submitting
import PyRaftKv.Service.Electing

open Consensus

namespace PyRaftKv

/-! ## 1. The loop, from the leader's side -/

/-- The leader has changed nothing but the row of `f` in its table. -/
structure RowOf (f : NodeId) (n n' : RaftNode) : Prop where
  only : n' = { n with replication := n'.replication }
  table : ∃ r r', n.replication = some r ∧ n'.replication = some r' ∧ r'.followers = r.followers ∧
    ∀ g, g ≠ f → r'.nextIndex g = r.nextIndex g ∧ r'.matchIndex g = r.matchIndex g

/-- The leader knows that `f` has its whole log. -/
def Caught (f : NodeId) (n : RaftNode) : Prop :=
  ∃ r, n.replication = some r ∧ n.log.lastIndex ≤ r.matchIndex f

section Turns

variable {f : NodeId} {n n' n'' : RaftNode}

theorem RowOf.trans (h : RowOf f n n') (h' : RowOf f n' n'') : RowOf f n n'' := by
  obtain ⟨honly, r, r', hr, hr', hfollowers, hrows⟩ := h
  obtain ⟨honly', s, s', hs, hs', hfollowers', hrows'⟩ := h'
  obtain rfl := Option.some.inj (hr'.symm.trans hs)
  refine ⟨?_, r, s', hr, hs', hfollowers'.trans hfollowers, fun g hg => ?_⟩
  · rw [honly', honly]
  · exact ⟨(hrows' g hg).1.trans (hrows g hg).1, (hrows' g hg).2.trans (hrows g hg).2⟩

/-- Another row for `f`. -/
theorem RowOf.setRow {r : LeaderReplication} (hr : n.replication = some r) (next matched : Int) :
    RowOf f n { n with replication := some { r with
      nextIndex := Function.update r.nextIndex f next
      matchIndex := Function.update r.matchIndex f matched } } :=
  ⟨rfl, r, _, hr, rfl, rfl, fun _ hg =>
    ⟨Function.update_of_ne hg _ _, Function.update_of_ne hg _ _⟩⟩

theorem RowOf.setNext {r : LeaderReplication} (hr : n.replication = some r) (next : Int) :
    RowOf f n { n with replication := some { r with
      nextIndex := Function.update r.nextIndex f next } } :=
  ⟨rfl, r, _, hr, rfl, rfl, fun _ hg => ⟨Function.update_of_ne hg _ _, rfl⟩⟩

/-- The next index behind a success answer is the one after the match index. -/
theorem Caught.advance {r : LeaderReplication} {index : Int}
    (hnext : ¬ (r.advance f index).nextIndex f ≤ n.log.lastIndex) :
    Caught f { n with replication := some (r.advance f index) } := by
  refine ⟨_, rfl, ?_⟩
  unfold LeaderReplication.advance at hnext ⊢
  simp only [Function.update_self] at hnext ⊢
  omega

/-- **A turn that goes on, or returns `True`**, changes the row of its follower only. -/
theorem replicateResponse_row {request : ReplicationRequest} {term : Int} {success : Bool}
    {result : Option Bool} {ws : List Effect}
    (hrun : RaftNode.replicateResponse f request term success n = ⟨.ok result, n', ws⟩)
    (hresult : result ≠ some false) :
    RowOf f n n' ∧ term ≤ n.state.currentTerm ∧ (result = some true → Caught f n') := by
  simp only [RaftNode.replicateResponse, NodeM.bind_run, NodeM.get_run, NodeM.andThen_ok,
    NodeM.behind_nil] at hrun
  rcases hr : n.replication with _ | r
  · simp only [hr, NodeM.pure_run] at hrun
    cases hrun
    exact absurd rfl hresult
  simp only [hr, NodeM.ite_run, NodeM.pure_run] at hrun
  split at hrun
  · cases hrun
    exact absurd rfl hresult
  split at hrun
  · -- of a newer term nothing is taken but the term
    rename_i hnew
    simp only [RaftNode.becomeFollower, RaftNode.persistState, NodeM.bind_run, NodeM.get_run,
      NodeM.andThen_ok, RaftState.becomeFollower_ok none (le_of_lt hnew), NodeM.lift_ok_run,
      NodeM.modify_run, NodeM.persist_run, NodeM.pure_run, NodeM.behind_mk] at hrun
    cases hrun
    exact absurd rfl hresult
  rename_i hnew
  cases success with
  | true =>
    rcases request with request | request
    all_goals simp only [NodeM.ite_run, NodeM.bind_run, NodeM.pure_run] at hrun
    all_goals by_cases hf : f ∈ r.followers
    · simp only [if_true, LeaderReplication.recordSuccess, hf, not_true_eq_false, if_false,
        NodeM.lift_ok_run, NodeM.andThen_ok, NodeM.behind_nil] at hrun
      cases hrun
      refine ⟨.setRow hr _ _, not_lt.mp hnew, fun htrue => .advance fun hle => ?_⟩
      rw [if_pos (Or.inl hle)] at htrue
      cases htrue
    · simp [LeaderReplication.recordSuccess, hf] at hrun
    · simp only [Bool.not_true, Bool.false_eq_true, LeaderReplication.recordSnapshotSuccess, hf,
        not_true_eq_false, if_false, NodeM.lift_ok_run, NodeM.andThen_ok, NodeM.behind_nil] at hrun
      cases hrun
      refine ⟨.setRow hr _ _, not_lt.mp hnew, fun htrue => .advance fun hle => ?_⟩
      rw [if_pos hle] at htrue
      cases htrue
    · simp [LeaderReplication.recordSnapshotSuccess, hf] at hrun
  | false =>
    rcases request with request | request
    all_goals simp only [NodeM.ite_run, NodeM.bind_run, NodeM.pure_run] at hrun
    · by_cases hf : f ∈ r.followers
      · simp only [Bool.false_eq_true, LeaderReplication.recordFailure, hf, not_true_eq_false,
          if_false, NodeM.lift_ok_run, NodeM.andThen_ok,
          NodeM.behind_nil] at hrun
        cases hrun
        exact ⟨.setNext hr _, not_lt.mp hnew, fun htrue => by cases htrue⟩
      · simp [LeaderReplication.recordFailure, hf] at hrun
    · simp only [Bool.not_false, if_true] at hrun
      cases hrun
      exact absurd rfl hresult

theorem replicateBuild_node (f : NodeId) (n : RaftNode) :
    (RaftNode.replicateBuild f n).node = n := by
  simp only [RaftNode.replicateBuild, NodeM.bind_run, NodeM.get_run, NodeM.andThen_ok,
    NodeM.behind_nil, NodeM.ite_run, NodeM.pure_run]
  split
  · rfl
  rcases n.replication with _ | r
  · rfl
  simp only [NodeM.ite_run, NodeM.bind_run, NodeM.pure_run, NodeM.raise_run]
  split
  · split
    · rfl
    · rfl
  · rcases r.buildRequest n.state n.log f (some n.state.commitIndex) with e | request
    · rfl
    · rfl

end Turns

/-! ## 2. The loop in the cluster -/

section Worker

open Cluster

variable {m : Members} {c : Cluster} {u f : NodeId} {p q : Process}

/-- A delivered request is answered for the term the member then is in. -/
theorem answer_term (hc : Reachable m c) (hq : c.process f = some q) (timeout : Nat) {i : Nat}
    {rpc : Rpc} (hi : c.rpcs[i]? = some rpc) (htarget : rpc.target = f) {a : Answer}
    (ha : (q.deliver ⟨c.now, timeout⟩ i rpc.request).answer = some a) :
    a.response.term =
      (q.deliver ⟨c.now, timeout⟩ i rpc.request).process.node.state.currentTerm := by
  obtain ⟨g, hr, rfl⟩ := hc.refines
  obtain ⟨h', p', hpromised⟩ : ∃ h' p', Promised c g f (.deliver i timeout) q
      (q.deliver ⟨c.now, timeout⟩ i rpc.request)
      (Lost c g.history (g.peer f) (.deliver i timeout)) h' p' := deliver_promised hr hq hi htarget
  obtain ⟨-, -, -, -, -, hterm⟩ := hpromised.answer a ha
  exact hterm.trans hpromised.lawful.up.mirrors.term

/-- What the loop reads of an answer, the cluster delivers. -/
theorem deliver_reply {clock : Clock} {i : Nat} {request : ReplicationRequest} {term : Int}
    {success : Bool} {q' : RaftNode} {ws : List Effect}
    (hreply : RaftNode.replicationReply clock request q.node =
      ⟨.ok (term, success), q', ws⟩) :
    ∃ a ws', q.deliver clock i request.toRequest =
        { process := { q with node := q' }, writes := ws', answer := some ⟨i, a⟩ } ∧
      Process.replicationAnswer a = some (term, success) ∧ a.term = term := by
  rcases request with request | request
  · simp only [RaftNode.replicationReply, NodeM.bind_run] at hreply
    rcases ho : RaftNode.handleAppendEntries clock request q.node with ⟨e | a, n, ws₀⟩
    · rw [ho] at hreply
      cases hreply
    · rw [ho] at hreply
      cases hreply
      refine ⟨.appendEntries a, ws₀.map (·.write), ?_, rfl, rfl⟩
      simp only [ReplicationRequest.toRequest, Process.deliver, ho]
      rfl
  · simp only [RaftNode.replicationReply, NodeM.bind_run] at hreply
    rcases ho : RaftNode.handleInstallSnapshot clock request q.node with ⟨e | a, n, ws₀⟩
    · rw [ho] at hreply
      cases hreply
    · rw [ho] at hreply
      cases hreply
      refine ⟨.installSnapshot a, ws₀.map (·.write), ?_, rfl, rfl⟩
      simp only [ReplicationRequest.toRequest, Process.deliver, ho]
      rfl

/-- Where a worker is behind a turn of the loop. -/
def turnState : Option Bool → WorkerState
  | none => .queued
  | some result => .finished (.ok result)

/-- **One turn of the loop in the cluster**, with a follower that answers. -/
theorem worker_turn (hc : Reachable m c) (hp : c.process u = some p) (hq : c.process f = some q)
    (hne : f ≠ u) {task : Nat} (hfuture : p.futures f = some ⟨task, .queued⟩)
    {request : ReplicationRequest} {ws ws' ws'' : List Effect} {term : Int} {success : Bool}
    {q' n' : RaftNode} {result : Option Bool}
    (hbuild : RaftNode.replicateBuild f p.node = ⟨.ok (some request), p.node, ws⟩)
    (hreply : RaftNode.replicationReply ⟨c.now, maxTimeout⟩ request q.node =
      ⟨.ok (term, success), q', ws'⟩)
    (hresponse : RaftNode.replicateResponse f request term success p.node =
      ⟨.ok result, n', ws''⟩) :
    ∃ c', Among [u, f] c c' ∧ c'.now = c.now ∧
      c'.process u = some { p with
        node := n'
        futures := Function.update p.futures f (some ⟨task, turnState result⟩) } ∧
      c'.process f = some { q with node := q' } ∧ q'.state.currentTerm = term := by
  -- the worker sends its request
  set i := c.rpcs.length with hi
  set p₁ := p.setFuture f (some ⟨task, .waiting i request⟩) with hp₁
  have hturn₁ : p.turn c u (.workerBuild f) = some {
      process := p₁, writes := ws.map (·.write), sends := [(f, request.toRequest)] } := by
    simp only [Process.turn, Process.workerBuild, hfuture, hbuild]
    rfl
  have hs₁ := step_run hp hturn₁
  set c₁ := c.finish u (.workerBuild f) ⟨p₁, ws.map (·.write), [(f, request.toRequest)], none, []⟩
    with hc₁
  have hq₁ : c₁.process f = some q := (finish_process_of_ne c _ _ hne).trans hq
  have hrpc : c₁.rpcs[i]? = some ⟨u, f, request.toRequest⟩ := List.getElem?_concat_length
  -- the follower answers
  obtain ⟨a, ws₂, hdeliver, hread, hterm⟩ := deliver_reply (i := i) hreply
  have hturn₂ : q.turn c₁ f (.deliver i maxTimeout) = some {
      process := { q with node := q' }, writes := ws₂, answer := some ⟨i, a⟩ } := by
    simp only [Process.turn, hrpc]
    exact (if_pos ⟨trivial, by decide, by decide⟩).trans (congrArg some hdeliver)
  have hs₂ := step_run hq₁ hturn₂
  have hreached : Reachable m c₁ := hc.tail ⟨_, hs₁⟩
  have hin : a.term = q'.state.currentTerm := by
    have := answer_term hreached hq₁ maxTimeout hrpc rfl
      (a := ⟨i, a⟩) (by rw [show c₁.now = c.now from rfl, hdeliver])
    rw [show c₁.now = c.now from rfl, hdeliver] at this
    exact this
  set c₂ := c₁.finish f (.deliver i maxTimeout) ⟨{ q with node := q' }, ws₂, [], some ⟨i, a⟩, []⟩
    with hc₂
  have hp₂ : c₂.process u = some p₁ :=
    (finish_process_of_ne c₁ _ _ hne.symm).trans (finish_process_self c _ _)
  have hanswer : c₂.answers[c.answers.length]? = some ⟨i, a⟩ := by
    have hanswers : c₂.answers = c.answers ++ [⟨i, a⟩] :=
      congrArg (· ++ [(⟨i, a⟩ : Answer)]) (List.append_nil c.answers)
    rw [hanswers, List.getElem?_concat_length]
  -- the worker reads the answer
  have hturn₃ : p₁.turn c₂ u (.workerAnswer f c.answers.length) = some {
      process := { p with
        node := n'
        futures := Function.update p.futures f (some ⟨task, turnState result⟩) }
      writes := ws''.map (·.write) } := by
    have hfuture₁ : p₁.futures f = some ⟨task, .waiting i request⟩ := Function.update_self _ _ _
    have hnode₁ : p₁.node = p.node := rfl
    have hupdate : Function.update p₁.futures f (some ⟨task, turnState result⟩) =
        Function.update p.futures f (some ⟨task, turnState result⟩) := Function.update_idem _ _ _
    simp only [Process.turn, hanswer, Option.bind_some, Process.workerAnswer, hfuture₁, hread,
      hnode₁, hresponse, ne_eq, not_true_eq_false, if_false]
    rcases result with _ | result
    · exact congrArg (fun futures => some (Turn.mk { p with node := n', futures } _ _ _ _)) hupdate
    · exact congrArg (fun futures => some (Turn.mk { p with node := n', futures } _ _ _ _)) hupdate
  have hs₃ := step_run hp₂ hturn₃
  have hby₁ : Action.By [u, f] (.run u (.workerBuild f)) := by simp [Action.By]
  have hby₂ : Action.By [u, f] (.run f (.deliver i maxTimeout)) := by simp [Action.By]
  have hby₃ : Action.By [u, f] (.run u (.workerAnswer f c.answers.length)) := by
    simp [Action.By]
  refine ⟨_, ((Among.step hby₁ hs₁).tail ⟨_, hby₂, hs₂⟩).tail ⟨_, hby₃, hs₃⟩, rfl,
    finish_process_self c₂ _ _, ?_, hin.symm.trans hterm⟩
  exact (finish_process_of_ne c₂ _ _ hne).trans (finish_process_self c₁ _ _)

/-- **The loop in the cluster.**  A worker whose loop returns `True` against a follower that answers
comes to its end, with no step of anybody else. -/
theorem worker_runs (hne : f ≠ u) {task : Nat} : ∀ (turns : Nat) {c : Cluster} {p q : Process}
    {n' q' : RaftNode}, Reachable m c → c.process u = some p → c.process f = some q →
    p.futures f = some ⟨task, .queued⟩ →
    RaftNode.replicateToFollower f (List.replicate turns ⟨c.now, maxTimeout⟩) p.node q.node =
      some (.ok true, n', q') →
    ∃ c', Among [u, f] c c' ∧ c'.process u = some { p with
        node := n'
        futures := Function.update p.futures f (some ⟨task, .finished (.ok true)⟩) } ∧
      c'.process f = some { q with node := q' } ∧ RowOf f p.node n' ∧ Caught f n' ∧
      q'.state.currentTerm ≤ p.node.state.currentTerm := by
  intro turns
  induction turns with
  | zero =>
    intro c p q n' q' _ _ _ _ hrun
    cases hrun
  | succ turns ih =>
    intro c p q n' q' hc hp hq hfuture hrun
    rw [List.replicate_succ, RaftNode.replicateToFollower] at hrun
    have hnode := replicateBuild_node f p.node
    rcases hbuild : RaftNode.replicateBuild f p.node with ⟨e | _ | request, n, ws⟩
    · simp only [hbuild] at hrun
      cases hrun
    · simp only [hbuild] at hrun
      cases hrun
    rw [hbuild] at hnode
    obtain rfl : n = p.node := hnode
    rcases hreply : RaftNode.replicationReply ⟨c.now, maxTimeout⟩ request q.node with
      ⟨e | ⟨term, success⟩, q₁, ws'⟩
    · simp only [hbuild, hreply] at hrun
      cases hrun
    rcases hresponse : RaftNode.replicateResponse f request term success p.node with
      ⟨e | result, n₁, ws''⟩
    · simp only [hbuild, hreply, hresponse] at hrun
      cases hrun
    obtain ⟨c₁, hrun₁, hnow, hp₁, hq₁, hterm⟩ :=
      worker_turn hc hp hq hne hfuture hbuild hreply hresponse
    rcases result with _ | result
    · -- the loop goes on
      simp only [hbuild, hreply, hresponse] at hrun
      obtain ⟨hrow, -, -⟩ := replicateResponse_row hresponse (by simp)
      have hsame : n₁.state = p.node.state := by rw [hrow.only]
      rw [← hnow] at hrun
      obtain ⟨c₂, hrun₂, hp₂, hq₂, hrow₂, hcaught, hterm₂⟩ :=
        ih (hc.trans hrun₁.leads) hp₁ hq₁ (Function.update_self _ _ _) hrun
      refine ⟨c₂, hrun₁.trans hrun₂, ?_, hq₂, hrow.trans hrow₂, hcaught, ?_⟩
      · rw [hp₂]
        simp only [Function.update_idem]
      · exact hterm₂.trans_eq (congrArg RaftState.currentTerm hsame)
    · simp only [hbuild, hreply, hresponse] at hrun
      cases hrun
      obtain ⟨hrow, hle, hcaught⟩ := replicateResponse_row hresponse (by simp)
      exact ⟨c₁, hrun₁, hp₁, hq₁, hrow, hcaught rfl, hterm ▸ hle⟩

end Worker

/-! ## 3. A round -/

/-- A stretch of a round leaves the node and the lock as they are. -/
structure Process.Stays (p p' : Process) : Prop where
  node : p'.node = p.node
  lock : p'.lockHolder = p.lockHolder

section Tasks

open Cluster

variable {c : Cluster} {u f : NodeId} {id : Nat} {p p' p'' : Process} {round : Round}
  {call : Option Round → Call}

theorem Process.Stays.trans (h : p.Stays p') (h' : p'.Stays p'') : p.Stays p'' :=
  ⟨h'.node.trans h.node, h'.lock.trans h.lock⟩

/-- The slot of a follower has no task, or one that is not done. -/
def Process.Open (p : Process) (f : NodeId) : Prop :=
  p.futures f = none ∨ ∃ task, p.futures f = some ⟨task, .queued⟩

variable (hcall : ∀ round, Process.roundOf (call round) = some (round, call))
include hcall

/-- A round asks for a follower's task. -/
theorem task_asked (hp : c.process u = some p) (hin : p.calls id = some (call (some round)))
    (hf : f ∈ round.followers) (hactive : round.active f = none) (hopen : p.Open f) :
    ∃ c' p' task, Among [u] c c' ∧ c'.process u = some p' ∧ p.Stays p' ∧
      p'.calls id = some (call (some { round with
        active := Function.update round.active f (some task) })) ∧
      p'.futures = Function.update p.futures f (some ⟨task, .queued⟩) := by
  have hby : Action.By [u] (.run u (.submitTask id f)) := List.mem_cons_self
  rcases hopen with hfree | ⟨task, hqueued⟩
  · have hturn : p.turn c u (.submitTask id f) = some { process := { p with
        futures := Function.update p.futures f (some ⟨p.nextId, .queued⟩)
        calls := Function.update p.calls id (some (call (some { round with
          active := Function.update round.active f (some p.nextId) })))
        nextId := p.nextId + 1 } } := by
      simp only [Process.turn, Process.submitTask, hin, Option.bind_some, hcall, hactive, hfree, hf,
        not_true_eq_false, ne_eq, or_self, if_false]
      rfl
    exact ⟨_, _, p.nextId, .step hby (step_run hp hturn), finish_process_self c _ _, ⟨rfl, rfl⟩,
      Function.update_self _ _ _, rfl⟩
  · have hturn : p.turn c u (.submitTask id f) = some { process := p.setCall id (some (call (some
        { round with active := Function.update round.active f (some task) }))) } := by
      simp only [Process.turn, Process.submitTask, hin, Option.bind_some, hcall, hactive, hqueued,
        hf, not_true_eq_false, ne_eq, or_self, if_false]
    refine ⟨_, _, task, .step hby (step_run hp hturn), finish_process_self c _ _, ⟨rfl, rfl⟩,
      Function.update_self _ _ _, ?_⟩
    rw [← hqueued, Function.update_eq_self]
    rfl

/-- **The first loop of a round**: every follower gets a task, or keeps the one it has. -/
theorem tasks_asked : ∀ {fs : List NodeId} {c : Cluster} {p : Process} {round : Round},
    c.process u = some p → p.calls id = some (call (some round)) → fs.Nodup →
    (∀ f ∈ fs, f ∈ round.followers ∧ round.active f = none ∧ p.Open f) →
    ∃ c' p' round', Among [u] c c' ∧ c'.process u = some p' ∧ p.Stays p' ∧
      p'.calls id = some (call (some round')) ∧ round'.followers = round.followers ∧
      (∀ f ∈ fs, ∃ task, round'.active f = some task ∧ p'.futures f = some ⟨task, .queued⟩) ∧
      ∀ f ∉ fs, round'.active f = round.active f ∧ p'.futures f = p.futures f := by
  intro fs
  induction fs with
  | nil =>
    intro c p round hp hin _ _
    exact ⟨c, p, round, .refl, hp, ⟨rfl, rfl⟩, hin, rfl, fun f hf => (List.not_mem_nil hf).elim,
      fun _ _ => ⟨rfl, rfl⟩⟩
  | cons f fs ih =>
    intro c p round hp hin hnd hfs
    rw [List.nodup_cons] at hnd
    obtain ⟨hf, hactive, hopen⟩ := hfs f List.mem_cons_self
    obtain ⟨c₁, p₁, task, hrun₁, hp₁, hstays₁, hin₁, hfutures₁⟩ :=
      task_asked hcall hp hin hf hactive hopen
    have hrest : ∀ g ∈ fs, g ∈ round.followers ∧
        Function.update round.active f (some task) g = none ∧ p₁.Open g := by
      intro g hg
      have hgf : g ≠ f := fun heq => hnd.1 (heq ▸ hg)
      obtain ⟨hgm, hga, hgo⟩ := hfs g (List.mem_cons_of_mem _ hg)
      refine ⟨hgm, (Function.update_of_ne hgf _ _).trans hga, ?_⟩
      unfold Process.Open
      rwa [hfutures₁, Function.update_of_ne hgf]
    obtain ⟨c₂, p₂, round', hrun₂, hp₂, hstays₂, hin₂, hfollowers, hasked, hsame⟩ :=
      ih hp₁ hin₁ hnd.2 hrest
    refine ⟨c₂, p₂, round', hrun₁.trans hrun₂, hp₂, hstays₁.trans hstays₂, hin₂, hfollowers,
      fun g hg => ?_, fun g hg => ?_⟩
    · rcases List.mem_cons.mp hg with rfl | hg
      · obtain ⟨ha, hfu⟩ := hsame g hnd.1
        rw [hfutures₁, Function.update_self] at hfu
        exact ⟨task, ha.trans (Function.update_self _ _ _), hfu⟩
      · exact hasked g hg
    · rw [List.mem_cons, not_or] at hg
      obtain ⟨ha, hfu⟩ := hsame g hg.2
      rw [hfutures₁, Function.update_of_ne hg.1] at hfu
      exact ⟨ha.trans (Function.update_of_ne hg.1 _ _), hfu⟩

/-- **The second loop of a round**: tasks that have ended with `True` are collected. -/
theorem tasks_collected : ∀ {fs : List NodeId} {c : Cluster} {p : Process} {round : Round},
    c.process u = some p → p.calls id = some (call (some round)) → fs.Nodup →
    (∀ f ∈ fs, ∃ task, round.active f = some task ∧
      p.futures f = some ⟨task, .finished (.ok true)⟩) →
    ∃ c' p' round', Among [u] c c' ∧ c'.process u = some p' ∧ p.Stays p' ∧
      p'.calls id = some (call (some round')) ∧ (∀ f ∈ fs, p'.futures f = none) ∧
      ∀ f ∉ fs, p'.futures f = p.futures f := by
  intro fs
  induction fs with
  | nil =>
    intro c p round hp hin _ _
    exact ⟨c, p, round, .refl, hp, ⟨rfl, rfl⟩, hin, fun f hf => (List.not_mem_nil hf).elim,
      fun _ _ => rfl⟩
  | cons f fs ih =>
    intro c p round hp hin hnd hfs
    rw [List.nodup_cons] at hnd
    obtain ⟨task, hactive, hdone⟩ := hfs f List.mem_cons_self
    set p₁ : Process := (p.setFuture f none).setCall id (some (call (some { round with
      results := Function.update round.results f (some true) }))) with hp₁
    have hturn : p.turn c u (.collectTask id f) = some { process := p₁ } := by
      simp only [Process.turn, Process.collectTask, hin, Option.bind_some, hcall, hactive, hdone,
        not_true_eq_false, ne_eq, if_false]
      rfl
    have hby : Action.By [u] (.run u (.collectTask id f)) := List.mem_cons_self
    have hp' : (c.finish u (.collectTask id f) { process := p₁ }).process u = some p₁ :=
      finish_process_self c _ _
    have hrest : ∀ g ∈ fs, ∃ task, round.active g = some task ∧
        p₁.futures g = some ⟨task, .finished (.ok true)⟩ := by
      intro g hg
      have hgf : g ≠ f := fun heq => hnd.1 (heq ▸ hg)
      obtain ⟨task, hga, hgd⟩ := hfs g (List.mem_cons_of_mem _ hg)
      exact ⟨task, hga, (Function.update_of_ne hgf _ _).trans hgd⟩
    obtain ⟨c₂, p₂, round', hrun₂, hp₂, hstays₂, hin₂, hfree, hsame⟩ :=
      ih hp' (Function.update_self _ _ _) hnd.2 hrest
    refine ⟨c₂, p₂, round', (Among.step hby (step_run hp hturn)).trans hrun₂, hp₂,
      (⟨rfl, rfl⟩ : p.Stays p₁).trans hstays₂, hin₂, fun g hg => ?_, fun g hg => ?_⟩
    · rcases List.mem_cons.mp hg with rfl | hg
      · exact (hsame g hnd.1).trans (Function.update_self _ _ _)
      · exact hfree g hg
    · rw [List.mem_cons, not_or] at hg
      exact (hsame g hg.2).trans (Function.update_of_ne hg.1 _ _)

end Tasks

/-- Member `u` is in the round of call `id` for the entries `es`, as the leader `n` that it was
behind them but for its table, and the round has asked every follower.  The followers in `done` run
and have all of its log; of the others it knows nothing but what it had before the entries, up to
`last`. -/
structure Serving (m : Members) (c : Cluster) (u : NodeId) (id : Nat) (es : List LogEntry)
    (n : RaftNode) (last : Int) (done : List NodeId) (p : Process) : Prop where
  up : c.process u = some p
  only : p.node = { n with replication := p.node.replication }
  call : ∃ round, p.calls id = some (.replicateRound es (some round)) ∧
    ∀ f ∈ m.others u, ∃ task, round.active f = some task ∧
      p.futures f = some ⟨task, if f ∈ done then .finished (.ok true) else .queued⟩
  lock : p.lockHolder = some id
  table : ∃ r, p.node.replication = some r ∧
    (∀ f ∉ done, r.nextIndex f = last + 1 ∧ r.matchIndex f = 0) ∧
    ∀ f ∈ done, n.log.lastIndex ≤ r.matchIndex f
  runs : ∀ f ∈ done, ∃ q, c.process f = some q
  highest : ∀ v ∈ m, (c.disk v).savedState.currentTerm ≤ n.state.currentTerm

section Round

open Cluster

variable {m : Members} {c : Cluster} {u f : NodeId} {id : Nat} {es : List LogEntry} {n : RaftNode}
  {last : Int} {done : List NodeId} {p q : Process}

theorem Members.nodup_others (m : Members) (v : NodeId) : (m.others v).Nodup :=
  m.nodup.filter _

/-- **The loop converges** for a follower that the leader knows nothing of, and that has compacted
nothing the leader did not have before the new entries. -/
theorem Serving.converges (hc : Reachable m c) (h : Serving m c u id es n last done p)
    (hlead : n.state.role = .leader) (hnew : last < n.log.lastIndex)
    (hfu : f ≠ u) (hf : f ∉ done) (hq : c.process f = some q)
    (hbase : q.node.log.baseIndex ≤ last) : Converges f p.node q.node := by
  obtain ⟨g, hr, rfl⟩ := hc.refines
  obtain ⟨r, htable, hrest, -⟩ := h.table
  have hlog : p.node.log = n.log := by rw [h.only]
  have hstate : p.node.state = n.state := by rw [h.only]
  obtain ⟨k, mi, hk, hmi, ht⟩ := hr.turning h.up hq (by rw [hstate]; exact hlead)
    (by rw [hstate]; exact h.highest) hfu htable
  rw [(hrest f hf).1] at hk
  rw [(hrest f hf).2] at hmi
  have hB := ht.listener.shows.base
  have hL := ht.shows.lastIndex
  rw [hlog] at hL
  rw [hL] at hnew
  refine ht.converges_iff.mpr ?_
  rcases Nat.lt_or_ge (g.peer f).base (g.peer u).base with hlt | hge
  · exact Or.inr ⟨by omega, by omega, fun _ hm => absurd hnew (by omega)⟩
  · exact Or.inl ⟨(g.peer f).base, hge, by omega, ht.listener.reaches_base⟩

/-- **One follower more.** -/
theorem Serving.follower (hc : Reachable m c) (h : Serving m c u id es n last done p)
    (hlead : n.state.role = .leader) (hnew : last < n.log.lastIndex)
    (hfm : f ∈ m) (hfu : f ≠ u) (hf : f ∉ done) (hq : c.process f = some q)
    (hbase : q.node.log.baseIndex ≤ last) :
    ∃ c' p', Among [u, f] c c' ∧ Serving m c' u id es n last (f :: done) p' := by
  obtain ⟨round, hcall, hslots⟩ := h.call
  obtain ⟨task, hactive, hqueued⟩ := hslots f (Members.mem_others.mpr ⟨hfm, hfu⟩)
  rw [if_neg hf] at hqueued
  -- the loop of its worker comes to an end
  obtain ⟨turns, hall⟩ := h.converges hc hlead hnew hfu hf hq hbase
  obtain ⟨n', q', hrun, -⟩ := hall (List.replicate turns ⟨c.now, maxTimeout⟩)
    List.length_replicate.ge
  obtain ⟨c₂, hrun₂, hup₂, hq₂, hrow, ⟨r', hr', hcaught⟩, hterm⟩ :=
    worker_runs hfu turns hc h.up hq hqueued hrun
  have hreach₂ : Reachable m c₂ := hc.trans hrun₂.leads
  have honly : n' = { n with replication := n'.replication } := by
    rw [hrow.only, h.only]
  have hframe : ∀ {v}, v ≠ u → v ≠ f → v ∉ [u, f] := by
    intro v hvu hvf
    rw [List.mem_cons, List.mem_singleton, not_or]
    exact ⟨hvu, hvf⟩
  refine ⟨c₂, _, hrun₂, hup₂, honly, ⟨round, hcall, fun g hg => ?_⟩, h.lock, ?_, fun g hg => ?_,
    fun v hv => ?_⟩
  · by_cases hgf : g = f
    · subst hgf
      rw [if_pos List.mem_cons_self]
      exact ⟨task, hactive, Function.update_self _ _ _⟩
    · obtain ⟨task', hactive', hslot⟩ := hslots g hg
      have hiff : g ∈ f :: done ↔ g ∈ done := by simp [hgf]
      refine ⟨task', hactive', (Function.update_of_ne hgf _ _).trans ?_⟩
      simp only [hiff, hslot]
  · obtain ⟨r, htable, hrest, hdone⟩ := h.table
    obtain ⟨r₁, r₂, hr₁, hr₂, -, hrows⟩ := hrow.table
    obtain rfl := Option.some.inj (htable.symm.trans hr₁)
    obtain rfl := Option.some.inj (hr'.symm.trans hr₂)
    refine ⟨r', hr', fun g hg => ?_, fun g hg => ?_⟩
    · rw [List.mem_cons, not_or] at hg
      exact ⟨(hrows g hg.1).1.trans (hrest g hg.2).1, (hrows g hg.1).2.trans (hrest g hg.2).2⟩
    · by_cases hgf : g = f
      · subst hgf
        rw [honly] at hcaught
        exact hcaught
      · have hg' := (List.mem_cons.mp hg).resolve_left hgf
        rw [(hrows g hgf).2]
        exact hdone g hg'
  · by_cases hgu : g = u
    · exact ⟨_, hgu ▸ hup₂⟩
    by_cases hgf : g = f
    · exact ⟨_, hgf ▸ hq₂⟩
    obtain ⟨q₀, hq₀⟩ := h.runs g ((List.mem_cons.mp hg).resolve_left hgf)
    exact ⟨q₀, (hrun₂.frame (hframe hgu hgf)).1.trans hq₀⟩
  · have hstate : p.node.state = n.state := by rw [h.only]
    by_cases hvu : v = u
    · subst hvu
      rw [saved_term hreach₂ hup₂]
      exact (congrArg (fun n : RaftNode => n.state.currentTerm) honly).le
    by_cases hvf : v = f
    · subst hvf
      rw [saved_term hreach₂ hq₂]
      exact hterm.trans_eq (congrArg RaftState.currentTerm hstate)
    · rw [(hrun₂.frame (hframe hvu hvf)).2]
      exact h.highest v hv

/-- **As many as there are**, one after the other. -/
theorem Serving.followers (hlead : n.state.role = .leader) (hnew : last < n.log.lastIndex) :
    ∀ {fs done : List NodeId} {c : Cluster} {p : Process}, Reachable m c →
    Serving m c u id es n last done p → fs.Nodup →
    (∀ f ∈ fs, f ∈ m ∧ f ≠ u ∧ f ∉ done ∧
      ∃ q, c.process f = some q ∧ q.node.log.baseIndex ≤ last) →
    ∃ c' p' done', Among (u :: fs) c c' ∧ Serving m c' u id es n last done' p' ∧ done ⊆ done' ∧
      fs ⊆ done' := by
  intro fs
  induction fs with
  | nil =>
    intro done c p _ h _ _
    exact ⟨c, p, done, .refl, h, List.Subset.refl _, List.nil_subset _⟩
  | cons f fs ih =>
    intro done c p hc h hnd hfs
    rw [List.nodup_cons] at hnd
    obtain ⟨hfm, hfu, hf, q, hq, hbase⟩ := hfs f List.mem_cons_self
    obtain ⟨c₁, p₁, hrun₁, h₁⟩ := h.follower hc hlead hnew hfm hfu hf hq hbase
    have hrest : ∀ g ∈ fs, g ∈ m ∧ g ≠ u ∧ g ∉ f :: done ∧
        ∃ q, c₁.process g = some q ∧ q.node.log.baseIndex ≤ last := by
      intro g hg
      obtain ⟨hgm, hgu, hgd, q, hq, hbase⟩ := hfs g (List.mem_cons_of_mem _ hg)
      have hgf : g ≠ f := fun heq => hnd.1 (heq ▸ hg)
      have hnot : g ∉ [u, f] := by
        rw [List.mem_cons, List.mem_singleton, not_or]
        exact ⟨hgu, hgf⟩
      refine ⟨hgm, hgu, ?_, q, (hrun₁.frame hnot).1.trans hq, hbase⟩
      rw [List.mem_cons, not_or]
      exact ⟨hgf, hgd⟩
    obtain ⟨c₂, p₂, done', hrun₂, h₂, hsub, hsub'⟩ := ih (hc.trans hrun₁.leads) h₁ hnd.2 hrest
    refine ⟨c₂, p₂, done', (hrun₁.mono ?_).trans (hrun₂.mono ?_), h₂,
      fun g hg => hsub (List.mem_cons_of_mem f hg), ?_⟩
    · exact List.cons_subset_cons u (List.cons_subset_cons f (List.nil_subset fs))
    · exact List.cons_subset_cons u (List.subset_cons_self f fs)
    · exact List.cons_subset.mpr ⟨hsub List.mem_cons_self, hsub'⟩

/-- A leader that has a table keeps it. -/
theorem initializeLeaderReplication_kept {r : LeaderReplication}
    (hlead : n.state.role = .leader) (hr : n.replication = some r) :
    RaftNode.initializeLeaderReplication n = ⟨.ok (), n, []⟩ := by
  simp only [RaftNode.initializeLeaderReplication, NodeM.bind_run, NodeM.get_run,
    NodeM.andThen_ok, NodeM.behind_nil, NodeM.ite_run, hlead, ne_eq, not_true_eq_false, if_false,
    hr, Option.isNone_some, Bool.false_eq_true, NodeM.pure_run]

theorem replicateLogStart_kept {r : LeaderReplication} (hlead : n.state.role = .leader)
    (hr : n.replication = some r) : RaftNode.replicateLogStart n = ⟨.ok (), n, []⟩ := by
  have hnone : ¬ n.replication.isNone = true := by simp [hr]
  simp only [RaftNode.replicateLogStart, NodeM.bind_run, NodeM.get_run, NodeM.andThen_ok,
    NodeM.behind_nil, NodeM.ite_run, if_neg (not_not.mpr hlead),
    initializeLeaderReplication_kept hlead hr, if_neg hnone, NodeM.pure_run]

theorem roundStart_kept {r : LeaderReplication} (hlead : n.state.role = .leader)
    (hr : n.replication = some r) : RaftNode.roundStart n = ⟨.ok r.followers, n, []⟩ := by
  simp only [RaftNode.roundStart, NodeM.bind_run, NodeM.get_run, NodeM.andThen_ok,
    NodeM.behind_nil, NodeM.ite_run, if_neg (not_not.mpr hlead),
    initializeLeaderReplication_kept hlead hr, NodeM.pure_run, hr, Option.map_some,
    Option.getD_some]

/-- **A client's commands reach the log**, and the round for them asks every follower. -/
theorem JustElected.begins {term : Int} {commands : List RaftCommand} (hc : Reachable m c)
    (h : JustElected c u term p) (hhighest : ∀ v ∈ m, (c.disk v).savedState.currentTerm ≤ term)
    (hsome : commands ≠ []) (hvalid : commands.forM RaftNode.validateCommand = .ok ()) :
    ∃ c' p' es n, Among [u] c c' ∧
      Serving m c' u p.nextId es n p.node.log.lastIndex [] p' ∧ p.node.log.Grown es n.log ∧
      n.state = p.node.state ∧ (∀ e ∈ es, e.term = p.node.state.currentTerm) ∧
      es.map (·.command) = commands := by
  obtain ⟨g, hr, rfl⟩ := hc.refines
  have hl := hr.live h.up
  have hempty : ¬ commands.isEmpty = true := by simpa using hsome
  have hfree : ¬ p.node.leadershipTransferInProgress = true := by
    rw [h.fresh.flag]
    exact Bool.false_ne_true
  obtain ⟨es, n', ws, h', hstart, -, -, -, hstate, hterms, hcommands⟩ :=
    submitStart_appends hl hempty hfree h.role hvalid
  have hpos : 0 ≤ p.node.state.currentTerm := by
    have := hl.history.elected_pos (hl.leading h.role).1
    omega
  obtain ⟨es', log', happ, hgrown, -⟩ := appendCommands_grown hpos commands p.node.log
  have hinit := initializeLeaderReplication_kept (n := { p.node with log := log' }) h.role h.table
  have hrun : RaftNode.submitStart commands p.node = ⟨.ok es', { p.node with log := log' },
      (appendLogEntries es').map fun w => ⟨{ p.node with log := log' }, w⟩⟩ := by
    simp only [RaftNode.submitStart, NodeM.bind_run, NodeM.get_run, NodeM.ite_run, if_neg hempty,
      if_neg hfree, if_neg (not_not.mpr h.role), hvalid, NodeM.lift_ok_run, NodeM.andThen_ok, happ,
      NodeM.persist_run, hinit, NodeM.behind_mk, NodeM.modify_run, NodeM.pure_run,
      List.append_nil, List.nil_append]
  obtain rfl : es' = es := by
    rw [hrun] at hstart
    cases hstart
    rfl
  obtain ⟨e, rest, rfl⟩ : ∃ e rest, es' = e :: rest := by
    rcases es' with _ | ⟨e, rest⟩
    · exact absurd hcommands.symm hsome
    · exact ⟨e, rest, rfl⟩
  -- the entries are appended
  set n : RaftNode := { p.node with log := log' } with hn
  set id := p.nextId with hid
  set ws₁ := (appendLogEntries (e :: rest)).map fun w => (⟨n, w⟩ : Effect) with hws₁
  set p₁ : Process := ({ p with node := n } : Process).newCall (.replicateLog (e :: rest)) with hp₁
  have hturn₁ : p.turn c u (.submitCommands commands) = some {
      process := p₁, writes := ws₁.map (·.write) } := by
    simp only [Process.turn, hrun]
    rfl
  have hs₁ := step_run h.up hturn₁
  set c₁ := c.finish u (.submitCommands commands) { process := p₁, writes := ws₁.map (·.write) }
    with hc₁
  have hup₁ : c₁.process u = some p₁ := finish_process_self c _ _
  have hlock₁ : p₁.lockHolder = none := h.fresh.lock
  have hcall₁ : p₁.calls id = some (.replicateLog (e :: rest)) := Function.update_self _ _ _
  have hnode₁ : p₁.node = n := rfl
  -- `replicate_log` takes the lock
  set p₂ : Process := { p₁ with
    calls := Function.update p₁.calls id (some (.replicateRound (e :: rest) none))
    lockHolder := some id } with hp₂
  have hturn₂ : p₁.turn c₁ u (.lockReplication id) = some { process := p₂ } := by
    simp only [Process.turn, Process.lockReplication, hlock₁, hcall₁, ne_eq, not_true_eq_false,
      if_false, hnode₁, replicateLogStart_kept (n := n) h.role h.table]
    rfl
  have hs₂ := step_run hup₁ hturn₂
  set c₂ := c₁.finish u (.lockReplication id) { process := p₂ } with hc₂
  have hup₂ : c₂.process u = some p₂ := finish_process_self c₁ _ _
  have hcall₂ : p₂.calls id = some (.replicateRound (e :: rest) none) := Function.update_self _ _ _
  have hnode₂ : p₂.node = n := rfl
  -- and the round begins
  set p₃ : Process := { p₂ with
    calls := Function.update p₂.calls id (some (.replicateRound (e :: rest)
      (some { followers := c.members.others u }))) } with hp₃
  have hturn₃ : p₂.turn c₂ u (.beginRound id) = some { process := p₃ } := by
    simp only [Process.turn, Process.beginRound, hcall₂, Option.bind_some, Process.roundOf, hnode₂,
      roundStart_kept (n := n) h.role h.table]
    rfl
  have hs₃ := step_run hup₂ hturn₃
  have hby : ∀ op, Action.By [u] (.run u op) := fun _ => List.mem_cons_self
  have hrun₃ : Among [u] c _ := ((Among.step (hby _) hs₁).tail ⟨_, hby _, hs₂⟩).tail ⟨_, hby _, hs₃⟩
  -- every follower gets a task
  have hup₃ : (c₂.finish u (.beginRound id) { process := p₃ }).process u = some p₃ :=
    finish_process_self c₂ _ _
  obtain ⟨c₄, p₄, round, hrun₄, hup₄, hstays, hin₄, -, hasked, -⟩ :=
    tasks_asked (fun _ => rfl) hup₃ (Function.update_self _ _ _) (c.members.nodup_others u)
      fun f hf => ⟨hf, rfl, .inl (h.fresh.futures f)⟩
  have hnode₄ : p₄.node = n := hstays.node
  have hrun : Among [u] c c₄ := hrun₃.trans hrun₄
  refine ⟨c₄, p₄, e :: rest, n, hrun, ⟨hup₄, by rw [hnode₄], ⟨round, hin₄, fun f hf => ?_⟩,
    hstays.lock, ⟨_, (congrArg RaftNode.replication hnode₄).trans h.table, fun _ _ => ⟨rfl, rfl⟩,
      fun f hf => (List.not_mem_nil hf).elim⟩, fun f hf => (List.not_mem_nil hf).elim,
    fun v hv => ?_⟩, hgrown, rfl, hterms, hcommands⟩
  · rw [if_neg List.not_mem_nil]
    exact hasked f hf
  by_cases hvu : v = u
  · subst hvu
    rw [saved_term (hc.trans hrun.leads) hup₄, hnode₄]
  · have hnot : v ∉ [u] := fun hmem => hvu (List.mem_singleton.mp hmem)
    rw [(hrun.frame hnot).2]
    exact (hhighest v hv).trans_eq h.term.symm

end Round

/-! ## 4. The commit -/

section Commit

variable {r : LeaderReplication} {log : RaftLog} {state : RaftState} {members : Members}
  {n : RaftNode}

/-- **Where a quorum has the whole log** and its last entry is new and of the leader's own term, the
leader commits all of it. -/
theorem advanceCommitIndex_all (hself : state.nodeId ∈ members)
    (hfollowers : r.followers = members.others state.nodeId)
    (hmatch : ∀ f, r.matchIndex f ≤ log.lastIndex) {Q : List NodeId} (hnd : Q.Nodup)
    (hmem : ∀ v ∈ Q, v ∈ members) (hquorum : members.quorumSize ≤ Q.length)
    (hall : ∀ v ∈ Q, v ≠ state.nodeId → log.lastIndex ≤ r.matchIndex v)
    (hnew : state.commitIndex < log.lastIndex) {e : LogEntry}
    (he : log.get log.lastIndex = some e) (hterm : e.term = state.currentTerm) :
    r.advanceCommitIndex state log members = log.lastIndex := by
  obtain ⟨candidate, hcandidate, hmajority⟩ := replicatedIndexes_middle log hself hfollowers
  have hprogress : ∀ v, r.progress state log v ≤ log.lastIndex := by
    intro v
    unfold LeaderReplication.progress
    split
    · exact le_rfl
    · exact hmatch v
  have hle : log.lastIndex ≤ candidate := by
    refine (hmajority _).mpr ?_
    have hsub : Q ⊆ members.ids.filter fun v =>
        decide (log.lastIndex ≤ r.progress state log v) := by
      intro v hv
      refine List.mem_filter.mpr ⟨hmem v hv, decide_eq_true ?_⟩
      unfold LeaderReplication.progress
      split
      · exact le_rfl
      · exact hall v hv ‹_›
    have hcount := (hnd.subperm hsub).length_le
    rw [← List.countP_eq_length_filter] at hcount
    unfold Members.quorumSize at hquorum
    omega
  have hge : candidate ≤ log.lastIndex := by
    by_contra hgt
    have hcount := (hmajority candidate).mp le_rfl
    have hzero : members.ids.countP (fun v => candidate ≤ r.progress state log v) = 0 := by
      rw [List.countP_eq_zero]
      intro v _
      have := hprogress v
      rw [decide_eq_true_eq]
      omega
    omega
  obtain rfl : candidate = log.lastIndex := le_antisymm hge hle
  unfold LeaderReplication.advanceCommitIndex
  rw [hcandidate]
  simp only [he, if_neg (not_le.mpr hnew), ne_eq, hterm, not_true_eq_false, if_false]

/-- Applying entries changes `last_applied` only. -/
theorem applyEntries_state (log : RaftLog) : ∀ (k : Nat) (s : RaftState) (store : KVStore),
    ∃ applied, (applyEntries log k s store).2.1 = { s with lastApplied := applied } := by
  intro k
  induction k with
  | zero => exact fun s store => ⟨s.lastApplied, rfl⟩
  | succ k ih =>
    intro s store
    simp only [applyEntries]
    rcases log.get (s.lastApplied + 1) with _ | e
    · exact ⟨s.lastApplied, rfl⟩
    simp only
    rcases applyCommand store e.command with x | store'
    · exact ⟨s.lastApplied, rfl⟩
    · obtain ⟨applied, happ⟩ := ih { s with lastApplied := s.lastApplied + 1 } store'
      exact ⟨applied, happ⟩

theorem applyCommitted_node (n : RaftNode) : ∃ applied store, (RaftNode.applyCommitted n).node =
    { n with state := { n.state with lastApplied := applied }, store := store } := by
  obtain ⟨applied, happ⟩ := applyEntries_state n.log
    (n.state.commitIndex - n.state.lastApplied).toNat n.state n.store
  refine ⟨applied, (applyCommittedEntries n.state n.log n.store).2.2, ?_⟩
  rw [← happ]
  rfl

/-- `replicate_log` behind its round, where the commit index moves. -/
theorem replicateLogFinish_advances (hr : n.replication = some r) (hlead : n.state.role = .leader)
    {index : Int} (hadvance : r.advanceCommitIndex n.state n.log n.members = index)
    (hne : index ≠ n.state.commitIndex) :
    ∃ applied store, (RaftNode.replicateLogFinish n).node = { n with
      state := { n.state with commitIndex := index, lastApplied := applied }, store := store } := by
  obtain ⟨applied, store, happ⟩ := applyCommitted_node
    { n with state := { n.state with commitIndex := index } }
  refine ⟨applied, store, ?_⟩
  rw [← happ]
  simp only [RaftNode.replicateLogFinish, NodeM.bind_run, NodeM.get_run, NodeM.andThen_ok,
    NodeM.behind_nil, hr, NodeM.ite_run, if_neg (not_not.mpr hlead), hadvance, NodeM.modify_run,
    if_pos hne, RaftNode.persistState, NodeM.persist_run]
  rfl

end Commit

/-! ## 5. The answer -/

section Answer

open Cluster

variable {m : Members} {c : Cluster} {Q : List NodeId} {u : NodeId} {id : Nat}
  {es : List LogEntry} {n : RaftNode} {last : Int} {done : List NodeId} {p : Process}

/-- The newest entry of a log with entries on top is one of these. -/
theorem RaftLog.Grown.newest {log log' : RaftLog} (h : log.Grown es log') (hsome : es ≠ []) :
    ∃ e ∈ es, log'.get log'.lastIndex = some e := by
  have hlen := h.lastIndex
  have hpos := List.length_pos_iff.mpr hsome
  have hbase := h.baseIndex
  have hle := log.lastIndex_eq
  have hbelow : log'.baseIndex < log'.lastIndex := by omega
  obtain ⟨e, he⟩ := Option.isSome_iff_exists.mp (RaftLog.get_isSome hbelow le_rfl)
  refine ⟨e, ?_, he⟩
  have hget := (RaftLog.get_eq_some.mp he).2
  have hposition : log.entries.length ≤ log'.position log'.lastIndex := by
    unfold RaftLog.position
    omega
  rw [h.entries, List.getElem?_append_right hposition] at hget
  exact List.mem_of_getElem? hget

theorem RaftLog.Grown.index_le {log log' : RaftLog} (h : log.Grown es log') {e : LogEntry}
    (he : e ∈ es) : e.index ≤ log'.lastIndex := by
  obtain ⟨i, hi⟩ := List.getElem?_of_mem
    (show e ∈ log'.entries from h.entries ▸ List.mem_append_right _ he)
  have hindex := log'.contiguous i e hi
  have hlt := (List.getElem?_eq_some_iff.mp hi).1
  have hlast := log'.lastIndex_eq
  omega

/-- **The round has reached a quorum**: `replicate_log` commits the whole log. -/
theorem round_commits (hc : Reachable m c) (hp : c.process u = some p)
    (honly : p.node = { n with replication := p.node.replication }) {round : Round}
    (hcall : p.calls id = some (.replicateRound es (some round))) {r : LeaderReplication}
    (htable : p.node.replication = some r) (hlead : n.state.role = .leader) {log : RaftLog}
    (hgrown : log.Grown es n.log) (hsome : es ≠ [])
    (hterms : ∀ e ∈ es, e.term = n.state.currentTerm)
    (hcommit : n.state.commitIndex < n.log.lastIndex) (hnd : Q.Nodup) (hmem : ∀ v ∈ Q, v ∈ m)
    (hquorum : m.quorumSize ≤ Q.length)
    (hcaught : ∀ v ∈ Q, v ≠ u → n.log.lastIndex ≤ r.matchIndex v) :
    ∃ c' p' applied store, Among [u] c c' ∧ c'.process u = some p' ∧ p'.node = { p.node with
        state := { n.state with commitIndex := n.log.lastIndex, lastApplied := applied }
        store := store } ∧
      p'.calls id = some (.submitResults es) ∧ p'.lockHolder = none ∧ p'.futures = p.futures := by
  obtain ⟨g, hr, rfl⟩ := hc.refines
  have hl := hr.live hp
  have htab := hl.table r htable
  have hlog : p.node.log = n.log := by rw [honly]
  have hstate : p.node.state = n.state := by rw [honly]
  have hlast := hl.mirrors.log.lastIndex
  obtain ⟨e, he, hget⟩ := hgrown.newest hsome
  have hid : n.state.nodeId = u := hstate ▸ hl.stateId
  have hadvance : r.advanceCommitIndex p.node.state p.node.log p.node.members =
      n.log.lastIndex := by
    rw [hstate, hlog, hl.members]
    refine advanceCommitIndex_all (hid.symm ▸ hl.member) (hid.symm ▸ htab.followers) (fun f => ?_)
      hnd hmem hquorum (fun v hv hne => hcaught v hv (hid ▸ hne)) hcommit hget (hterms e he)
    rw [← hlog, hlast]
    exact htab.match_le f
  obtain ⟨applied, store, hnode⟩ := replicateLogFinish_advances htable (hstate ▸ hlead) hadvance
    (by rw [hstate]; omega)
  have hok : (RaftNode.replicateLogFinish p.node).result = .ok () := by
    rcases replicateLogFinish_lawful hl with hrun | ⟨n', s, h', k, R, hrun, -⟩
    · rw [hrun]
    · rw [hrun]
  have hempty : ¬ es.isEmpty = true := by simpa using hsome
  set o := RaftNode.replicateLogFinish p.node with ho
  have hturn : p.turn c u (.finishRound id) = some {
      process := (p.after o).release id (.submitResults es), writes := o.writes } := by
    simp only [Process.turn, Process.finishRound, hcall, ← ho, hok, if_neg hempty]
  refine ⟨_, _, applied, store, .step List.mem_cons_self (step_run hp hturn),
    finish_process_self c _ _, ?_, Function.update_self _ _ _, rfl, rfl⟩
  change o.node = _
  rw [hnode, hstate]

/-- Of entries that are committed all are written. -/
theorem written_all (node : NodeId) (term commit : Int) (hall : ∀ e ∈ es, e.index ≤ commit) :
    ((es.zip (es.map fun e => decide (commit ≥ e.index))).filter (·.2)).map
        (fun r => (⟨node, term, r.1⟩ : Acknowledgement)) =
      es.map fun e => ⟨node, term, e⟩ := by
  rw [← List.map_prod_left_eq_zip, List.filter_map, List.map_map]
  have hkeep : es.filter ((fun r : LogEntry × Bool => r.2) ∘
      fun e => (e, decide (commit ≥ e.index))) = es :=
    List.filter_eq_self.mpr fun e he => decide_eq_true (hall e he)
  rw [hkeep]
  rfl

/-- **The client gets its answer**, behind a heartbeat round that asks every follower and then waits
for nobody. -/
theorem submit_answers {r : LeaderReplication} (hp : c.process u = some p)
    (hlead : p.node.state.role = .leader) (hr : p.node.replication = some r)
    (hcall : p.calls id = some (.submitResults es)) (hlock : p.lockHolder = none)
    (hsome : es ≠ []) (hall : ∀ e ∈ es, e.index ≤ p.node.state.commitIndex)
    (hnd : r.followers.Nodup) (hopen : ∀ f ∈ r.followers, p.Open f) :
    ∃ c' p', Among [u] c c' ∧ c'.process u = some p' ∧ p'.node = p.node ∧
      (es.map fun e => ⟨p.node.nodeId, p.node.state.currentTerm, e⟩) <:+ c'.acknowledged := by
  set written : List Acknowledgement :=
    es.map fun e => ⟨p.node.nodeId, p.node.state.currentTerm, e⟩ with hwritten
  have hnone : ¬ written.isEmpty = true := by simpa [hwritten] using hsome
  -- the results
  have hresults : RaftNode.submitResults es p.node =
      ⟨.ok (es.map fun e => decide (p.node.state.commitIndex ≥ e.index)), p.node, []⟩ := by
    simp [RaftNode.submitResults, NodeM.bind_run, hlead, hr]
  set p₁ := p.setCall id (some (.sendHeartbeats written)) with hp₁
  have hturn₁ : p.turn c u (.submitResults id) = some { process := p₁ } := by
    simp only [Process.turn, Process.submitResults, hcall, hresults,
      written_all p.node.nodeId p.node.state.currentTerm p.node.state.commitIndex hall,
      ← hwritten, if_neg hnone]
    rfl
  have hs₁ := step_run hp hturn₁
  set c₁ := c.finish u (.submitResults id) { process := p₁ } with hc₁
  have hup₁ : c₁.process u = some p₁ := finish_process_self c _ _
  have hcall₁ : p₁.calls id = some (.sendHeartbeats written) := Function.update_self _ _ _
  have hlock₁ : p₁.lockHolder = none := hlock
  have hnode₁ : p₁.node = p.node := rfl
  -- the heartbeats
  set p₂ := ({ p₁ with lockHolder := some id } : Process).setCall id
    (some (.heartbeatRound written none)) with hp₂
  have hturn₂ : p₁.turn c₁ u (.lockReplication id) = some { process := p₂ } := by
    simp only [Process.turn, Process.lockReplication, hlock₁, hcall₁, ne_eq, not_true_eq_false,
      if_false]
    rfl
  have hs₂ := step_run hup₁ hturn₂
  set c₂ := c₁.finish u (.lockReplication id) { process := p₂ } with hc₂
  have hup₂ : c₂.process u = some p₂ := finish_process_self c₁ _ _
  have hcall₂ : p₂.calls id = some (.heartbeatRound written none) := Function.update_self _ _ _
  have hnode₂ : p₂.node = p.node := rfl
  set p₃ := p₂.setCall id (some (.heartbeatRound written (some { followers := r.followers })))
    with hp₃
  have hturn₃ : p₂.turn c₂ u (.beginRound id) = some { process := p₃ } := by
    simp only [Process.turn, Process.beginRound, hcall₂, Option.bind_some, Process.roundOf, hnode₂,
      roundStart_kept hlead hr]
    rfl
  have hs₃ := step_run hup₂ hturn₃
  set c₃ := c₂.finish u (.beginRound id) { process := p₃ } with hc₃
  have hup₃ : c₃.process u = some p₃ := finish_process_self c₂ _ _
  have hcall₃ : p₃.calls id =
      some (.heartbeatRound written (some { followers := r.followers })) :=
    Function.update_self _ _ _
  obtain ⟨c₄, p₄, round, hrun₄, hup₄, hstays, hcall₄, -⟩ :=
    tasks_asked (fun _ => rfl) hup₃ hcall₃ hnd fun f hf => ⟨hf, rfl, hopen f hf⟩
  have hturn₅ : p₄.turn c₄ u (.finishRound id) = some {
      process := p₄.endCall id, acknowledged := written } := by
    simp only [Process.turn, Process.finishRound, hcall₄]
  have hs₅ := step_run hup₄ hturn₅
  have hby : ∀ op, Action.By [u] (.run u op) := fun _ => List.mem_cons_self
  have hrun₃ : Among [u] c c₃ :=
    ((Among.step (hby _) hs₁).tail ⟨_, hby _, hs₂⟩).tail ⟨_, hby _, hs₃⟩
  exact ⟨_, _, (hrun₃.trans hrun₄).tail ⟨_, hby _, hs₅⟩, finish_process_self c₄ _ _, hstays.node,
    List.suffix_append _ _⟩

end Answer

/-! ## 6. A quorum -/

section Quorum

open Cluster

variable {m : Members} {c : Cluster} {g : Grp} {Q : List NodeId} {u : NodeId} {p : Process}

/-- A leader in the highest term has everything that was ever decided. -/
theorem Refines.leader_decided (hr : Refines c g) (hp : c.process u = some p)
    (hlead : p.node.state.role = .leader) (hhighest : ∀ v ∈ c.members,
      (c.disk v).savedState.currentTerm ≤ p.node.state.currentTerm) {l : List LogEntry}
    (hl : g.history.Decided l) : l <+: (g.peer u).log := by
  obtain ⟨hel, hlog, -⟩ := (hr.live hp).leading hlead
  rcases hl with rfl | ⟨d, hd, hpre⟩
  · exact List.nil_prefix
  · obtain ⟨⟨R, hR, hRQ, hcard⟩, hacks⟩ := hr.sound.history.decision_quorum d hd
    obtain ⟨w, hw⟩ := Finset.card_pos.mp (show 0 < R.card by omega)
    have hmember : w ∈ c.members := List.mem_toFinset.mp (hR hw)
    have hdt : d.term ≤ p.node.state.currentTerm :=
      ((hr.sound.peer w).acks _ _ (hacks w (hRQ hw))).1.trans
        ((hr.onDisk w).term ▸ hhighest w hmember)
    rw [hlog]
    exact hpre.trans (hr.sound.history.decision_held hd hel hdt)

/-- What a leader in the highest term has before a client's commands: all that is committed, and all
that any running member has committed or compacted away. -/
theorem leader_covers (hc : Reachable m c) (hp : c.process u = some p)
    (hlead : p.node.state.role = .leader) (hhighest : ∀ v ∈ m,
      (c.disk v).savedState.currentTerm ≤ p.node.state.currentTerm) :
    (c.committed.length : Int) ≤ p.node.log.lastIndex ∧
      ∀ f q, c.process f = some q → q.node.state.commitIndex ≤ p.node.log.lastIndex ∧
        q.node.log.baseIndex ≤ p.node.log.lastIndex := by
  obtain ⟨g, hr, rfl⟩ := hc.refines
  have hm := (hr.live hp).mirrors
  rw [hm.log.lastIndex]
  refine ⟨?_, fun f q hq => ?_⟩
  · have hpre := hr.leader_decided hp hlead hhighest
      ((hr.committed _).mpr (List.prefix_refl _))
    exact Int.ofNat_le.mpr hpre.length_le
  · have hlf := hr.live hq
    have hpre := hr.leader_has hp hlead hhighest f
    have hlen := hpre.length_le
    rw [List.length_take_of_le hlf.peer.commit_le] at hlen
    have hbase := hlf.peer.base_le
    rw [hlf.mirrors.commit, hlf.mirrors.log.base]
    omega

/-- **Where such a leader has committed its whole log**, that log is what is committed. -/
theorem Refines.committed_eq (hr : Refines c g) (hp : c.process u = some p)
    (hlead : p.node.state.role = .leader) (hhighest : ∀ v ∈ c.members,
      (c.disk v).savedState.currentTerm ≤ p.node.state.currentTerm)
    (hcommit : p.node.state.commitIndex = p.node.log.lastIndex) :
    c.committed = (g.peer u).log := by
  have hm := (hr.live hp).mirrors
  have hall : (g.peer u).log.length ≤ (g.peer u).commit := by
    have := hm.commit
    have := hm.log.lastIndex
    omega
  have hpre := hr.leader_decided hp hlead hhighest ((hr.committed _).mpr (List.prefix_refl _))
  have hpre' : (g.peer u).log <+: c.committed := by
    obtain ⟨t, hdec, -⟩ := (hr.sound.peer u).decided
    have := (hr.committed _).mp hdec.decided
    rwa [List.take_of_length_le hall] at this
  exact hpre.eq_of_length (le_antisymm hpre.length_le hpre'.length_le)

theorem committed_all (hc : Reachable m c) (hp : c.process u = some p)
    (hlead : p.node.state.role = .leader) (hhighest : ∀ v ∈ m,
      (c.disk v).savedState.currentTerm ≤ p.node.state.currentTerm)
    (hcommit : p.node.state.commitIndex = p.node.log.lastIndex) :
    ∃ compacted, c.committed = compacted ++ p.node.log.entries ∧
      (c.committed.length : Int) = p.node.log.lastIndex := by
  obtain ⟨g, hr, rfl⟩ := hc.refines
  have hm := (hr.live hp).mirrors
  have heq := hr.committed_eq hp hlead hhighest hcommit
  refine ⟨(g.peer u).log.take (g.peer u).base, ?_, ?_⟩
  · rw [heq, hm.log.entries, List.take_append_drop]
  · rw [heq, hm.log.lastIndex]

/-- A term above those of all members has not been won. -/
theorem Refines.elected_le (hr : Refines c g) {term t : Int}
    (hhighest : ∀ v ∈ c.members, (c.disk v).savedState.currentTerm ≤ term)
    (hel : g.history.Elected t) : t ≤ term := by
  obtain ⟨e, he, rfl⟩ := hel
  obtain ⟨es, hsuffix⟩ := suffix_of_mem he
  obtain ⟨⟨R, hR, hRQ, hcard⟩, hballots⟩ := hr.sound.history.election_quorum e es hsuffix
  obtain ⟨w, hw⟩ := Finset.card_pos.mp (show 0 < R.card by omega)
  obtain ⟨b, hb, hvoter, -, hterm, -⟩ := hballots w (hRQ hw)
  rw [← hterm]
  exact ((hr.sound.peer w).ballots b hb hvoter).1.trans
    ((hr.onDisk w).term ▸ hhighest w (List.mem_toFinset.mp (hR hw)))

/-- A member whose log has all that is committed has every committed entry, in its log or its
snapshot. -/
theorem Refines.has_committed (hr : Refines c g) {f : NodeId} {q : Process}
    (hq : c.process f = some q) (hpre : c.committed <+: (g.peer f).log) :
    ∀ e ∈ c.committed, Has q.node.log q.node.snapshot c.committed e := by
  intro e he
  obtain ⟨i, hi⟩ := List.getElem?_of_mem he
  have hm := (hr.live hq).mirrors
  exact .of_getElem hm.log hm.snapshot (hr.peer_whole f) (hr.base_isPrefix f)
    (getElem?_mono hpre hi)

/-- **What such a leader knows of a follower** is so: where the follower has confirmed the whole
log, the last entry of which is of the leader's term, it has all that is committed. -/
theorem follower_has (hc : Reachable m c) (hp : c.process u = some p)
    (hlead : p.node.state.role = .leader) (hhighest : ∀ v ∈ m,
      (c.disk v).savedState.currentTerm ≤ p.node.state.currentTerm)
    (hcommit : p.node.state.commitIndex = p.node.log.lastIndex) {r : LeaderReplication}
    (htable : p.node.replication = some r) {e : LogEntry}
    (hget : p.node.log.get p.node.log.lastIndex = some e)
    (hterm : e.term = p.node.state.currentTerm) {f : NodeId} {q : Process}
    (hq : c.process f = some q) (hmatch : f = u ∨ p.node.log.lastIndex ≤ r.matchIndex f) :
    ∀ e ∈ c.committed, Has q.node.log q.node.snapshot c.committed e := by
  obtain ⟨g, hr, rfl⟩ := hc.refines
  have hl := hr.live hp
  have hm := hl.mirrors
  have heq := hr.committed_eq hp hlead hhighest hcommit
  refine hr.has_committed hq ?_
  rcases hmatch with rfl | hmatch
  · rw [heq]
  -- the follower has acknowledged the last entry in the leader's term, and no later term was won
  obtain ⟨i, hidx, -, hi⟩ := hm.log.get_eq_some.mp hget
  have hlen := hm.log.lastIndex
  have hrole : (g.peer u).role = .leader := hm.role.trans (congrArg NodeRole.role hlead)
  have hack := (hl.table r htable).acked hrole f i e (by omega) hi (hterm.trans hm.term.symm)
  obtain ⟨-, hheld | ⟨t, hel, hlt, -⟩⟩ := (hr.sound.peer f).acks _ _ hack
  · rw [heq]
    have hwhole := (hl.leading hlead).2.1
    unfold History.Holds at hheld
    rw [hm.term, ← hwhole, List.take_of_length_le (by omega)] at hheld
    exact hheld
  · exact absurd hlt (not_lt.mpr (hm.term ▸ hr.elected_le hhighest hel))

/-- What is committed stays. -/
theorem committed_grows {c' : Cluster} (hc : Reachable m c) (h : Leads c c') :
    c.committed <+: c'.committed := by
  obtain ⟨g, hr, -⟩ := hc.refines
  obtain ⟨-, -, -, -, -, hgrows, -⟩ := Leads.follows hr h
  exact hgrows

/-- **Any quorum can serve its clients**, from every reachable state and with no step of anybody
else: it elects a leader, takes valid commands, commits them on top of all that was committed
before, so that every member of the quorum has all of it, and answers `True` for each of them. -/
theorem quorum_serves (hc : Reachable m c) (hnd : Q.Nodup) (hmem : ∀ v ∈ Q, v ∈ m)
    (hq : m.quorumSize ≤ Q.length) {commands : List RaftCommand} (hsome : commands ≠ [])
    (hvalid : commands.forM RaftNode.validateCommand = .ok ()) :
    ∃ c' u term before es, Among Q c c' ∧ u ∈ Q ∧ LeadsIn c' u term ∧
      es.map (·.command) = commands ∧ c'.committed = c.committed ++ before ++ es ∧
      (∀ v ∈ Q, ∃ q, c'.process v = some q ∧
        ∀ e ∈ c'.committed, Has q.node.log q.node.snapshot c'.committed e) ∧
      (es.map fun e => ⟨u, term, e⟩) <:+ c'.acknowledged := by
  have hmembers : c.members = m := by
    obtain ⟨g, -, hm⟩ := hc.refines
    exact hm
  -- a leader
  obtain ⟨c₁, u, term, p₁, hoffice⟩ := quorum_recovers hc hnd hmem hq
  have hc₁ : Reachable m c₁ := hc.trans hoffice.among.leads
  have helected := hoffice.elected
  have hhighest : ∀ v ∈ m, (c₁.disk v).savedState.currentTerm ≤ term :=
    fun v hv => hoffice.highest v (hmembers ▸ hv)
  obtain ⟨hold, hcovers⟩ := leader_covers hc₁ helected.up helected.role
    (helected.term.symm ▸ hhighest)
  -- a client's commands
  obtain ⟨c₂, p₂, es, n, hrun₂, hserving, hgrown, hstate, hterms, hcommands⟩ :=
    helected.begins hc₁ hhighest hsome hvalid
  have hc₂ : Reachable m c₂ := hc₁.trans hrun₂.leads
  have hes : es ≠ [] := by
    rintro rfl
    exact hsome hcommands.symm
  have hlen := hgrown.lastIndex
  have hpos := List.length_pos_iff.mpr hes
  have hlead : n.state.role = .leader := hstate ▸ helected.role
  -- the others of the quorum
  have hfollowers : ∀ f ∈ Q.erase u, f ∈ m ∧ f ≠ u ∧ f ∉ [] ∧
      ∃ q, c₂.process f = some q ∧ q.node.log.baseIndex ≤ p₁.node.log.lastIndex := by
    intro f hf
    obtain ⟨hfu, hfQ⟩ := hnd.mem_erase_iff.mp hf
    obtain ⟨q, hq⟩ := hoffice.up f hfQ
    have hnot : f ∉ [u] := fun h => hfu (List.mem_singleton.mp h)
    exact ⟨hmem f hfQ, hfu, List.not_mem_nil, q, (hrun₂.frame hnot).1.trans hq, (hcovers f q hq).2⟩
  obtain ⟨c₃, p₃, done, hrun₃, hserving₃, -, hdone⟩ :=
    Serving.followers hlead (by omega) hc₂ hserving (hnd.erase u) hfollowers
  have hdone : ∀ v ∈ Q, v ≠ u → v ∈ done :=
    fun v hv hne => hdone (hnd.mem_erase_iff.mpr ⟨hne, hv⟩)
  have hc₃ : Reachable m c₃ := hc₂.trans hrun₃.leads
  -- their results are collected
  obtain ⟨round, hcall₃, hslots⟩ := hserving₃.call
  obtain ⟨r, htable, -, hcaught⟩ := hserving₃.table
  have hended : ∀ f ∈ (m.others u).filter (· ∈ done), ∃ task, round.active f = some task ∧
      p₃.futures f = some ⟨task, .finished (.ok true)⟩ := by
    intro f hf
    obtain ⟨hfm, hfd⟩ := List.mem_filter.mp hf
    obtain ⟨task, hactive, hslot⟩ := hslots f hfm
    rw [if_pos (of_decide_eq_true hfd)] at hslot
    exact ⟨task, hactive, hslot⟩
  obtain ⟨c₄, p₄, round', hrun₄, hup₄, hstays, hcall₄, hfree, hqueued⟩ :=
    tasks_collected (fun _ => rfl) hserving₃.up hcall₃ ((m.nodup_others u).filter _) hended
  have hc₄ : Reachable m c₄ := hc₃.trans hrun₄.leads
  have hopen : ∀ f ∈ m.others u, p₄.Open f := by
    intro f hf
    by_cases hfd : f ∈ done
    · exact .inl (hfree f (List.mem_filter.mpr ⟨hf, decide_eq_true hfd⟩))
    · obtain ⟨task, -, hslot⟩ := hslots f hf
      rw [if_neg hfd] at hslot
      refine .inr ⟨task, (hqueued f fun h => hfd ?_).trans hslot⟩
      exact of_decide_eq_true (List.mem_filter.mp h).2
  -- the commit
  have hcommit := (hcovers u p₁ helected.up).1
  have htable₄ : p₄.node.replication = some r :=
    (congrArg RaftNode.replication hstays.node).trans htable
  obtain ⟨c₅, p₅, applied, store, hrun₅, hup₅, hnode₅, hcall₅, hlock₅, hfutures⟩ :=
    round_commits hc₄ hup₄ (hstays.node ▸ hserving₃.only) hcall₄ htable₄ hlead hgrown hes
      (hstate ▸ hterms) (by rw [hstate]; omega) hnd hmem hq
      fun v hv hne => hcaught v (hdone v hv hne)
  have hlog₅ : p₅.node.log = n.log := by rw [hnode₅, hstays.node, hserving₃.only]
  have hterm₅ : p₅.node.state.currentTerm = n.state.currentTerm := by rw [hnode₅]
  have hcommit₅ : p₅.node.state.commitIndex = p₅.node.log.lastIndex := by rw [hlog₅, hnode₅]
  have htable₅ : p₅.node.replication = some r := by rw [hnode₅, htable₄]
  obtain ⟨hid₅, hfollowers₅⟩ : p₅.node.nodeId = u ∧ r.followers = m.others u := by
    obtain ⟨g, hr, hm⟩ := Reachable.refines (hc₄.trans hrun₅.leads)
    have hup := hr.up u p₅ hup₅
    exact ⟨hup.id, hm ▸ (hup.table r htable₅).followers⟩
  -- the answer
  have hall : ∀ e ∈ es, e.index ≤ p₅.node.state.commitIndex := by
    intro e he
    rw [hcommit₅, hlog₅]
    exact hgrown.index_le he
  obtain ⟨c₆, p₆, hrun₆, hup₆, hnode₆, hack⟩ := submit_answers hup₅ (by rw [hnode₅]; exact hlead)
    htable₅ hcall₅ hlock₅ hes hall (hfollowers₅ ▸ m.nodup_others u) fun f hf => by
      have hf := hopen f (hfollowers₅ ▸ hf)
      unfold Process.Open at hf ⊢
      rwa [hfutures]
  have hrun₃₆ : Among [u] c₃ c₆ := hrun₄.trans (hrun₅.trans hrun₆)
  have hc₆ : Reachable m c₆ := hc₃.trans hrun₃₆.leads
  have hterm₆ : p₆.node.state.currentTerm = n.state.currentTerm := by rw [hnode₆, hterm₅]
  have hrole₆ : p₆.node.state.role = .leader := by rw [hnode₆, hnode₅]; exact hlead
  have hcommit₆ : p₆.node.state.commitIndex = p₆.node.log.lastIndex := by
    rw [hnode₆]
    exact hcommit₅
  have hlog₆ : p₆.node.log = n.log := by rw [hnode₆, hlog₅]
  have hother : ∀ {v}, v ≠ u → v ∉ [u] := fun hvu h => hvu (List.mem_singleton.mp h)
  have hhighest₆ : ∀ v ∈ m, (c₆.disk v).savedState.currentTerm ≤ p₆.node.state.currentTerm := by
    intro v hv
    by_cases hvu : v = u
    · subst hvu
      exact (saved_term hc₆ hup₆).le
    · rw [(hrun₃₆.frame (hother hvu)).2, hterm₆]
      exact hserving₃.highest v hv
  obtain ⟨compacted, hcommitted, hlength⟩ := committed_all hc₆ hup₆ hrole₆ hhighest₆ hcommit₆
  -- what the members of the quorum have
  obtain ⟨newest, hnewest, hget⟩ := hgrown.newest hes
  have hhas : ∀ v ∈ Q, ∃ q, c₆.process v = some q ∧
      ∀ e ∈ c₆.committed, Has q.node.log q.node.snapshot c₆.committed e := by
    intro v hv
    obtain ⟨q, hq, hmatch⟩ : ∃ q, c₆.process v = some q ∧
        (v = u ∨ p₆.node.log.lastIndex ≤ r.matchIndex v) := by
      by_cases hvu : v = u
      · exact ⟨p₆, hvu ▸ hup₆, .inl hvu⟩
      · obtain ⟨q, hq⟩ := hserving₃.runs v (hdone v hv hvu)
        exact ⟨q, (hrun₃₆.frame (hother hvu)).1.trans hq,
          .inr (hlog₆ ▸ hcaught v (hdone v hv hvu))⟩
    exact ⟨q, hq, follower_has hc₆ hup₆ hrole₆ hhighest₆ hcommit₆ (hnode₆ ▸ htable₅)
      (e := newest) (by rw [hlog₆, hget]) (by rw [hterm₆, hstate]; exact hterms newest hnewest)
      hq hmatch⟩
  -- the whole run
  have hu : [u] ⊆ Q := List.cons_subset.mpr ⟨hoffice.mem, List.nil_subset Q⟩
  have hrun : Among Q c c₆ := hoffice.among.trans ((hrun₂.mono hu).trans
    ((hrun₃.mono (List.cons_subset.mpr ⟨hoffice.mem, List.erase_subset⟩)).trans
      (hrun₃₆.mono hu)))
  have hentries : p₆.node.log.entries = p₁.node.log.entries ++ es := by
    rw [hlog₆, hgrown.entries]
  have hwhole : c₆.committed = (compacted ++ p₁.node.log.entries) ++ es := by
    rw [hcommitted, hentries, List.append_assoc]
  have hlonger : c.committed.length ≤ (compacted ++ p₁.node.log.entries).length := by
    have hgrows := (committed_grows hc hoffice.among.leads).length_le
    have hsize := congrArg List.length hwhole
    rw [List.length_append] at hsize
    rw [hlog₆] at hlength
    omega
  obtain ⟨before, hbefore⟩ := List.prefix_of_prefix_length_le (committed_grows hc hrun.leads)
    (hwhole ▸ List.prefix_append _ _) hlonger
  have hterm : n.state.currentTerm = term := by rw [hstate, helected.term]
  refine ⟨c₆, u, term, before, es, hrun, hoffice.mem, ⟨p₆, hup₆, hrole₆, hterm₆.trans hterm⟩,
    hcommands, by rw [hwhole, hbefore], hhas, ?_⟩
  rwa [hid₅, hterm₅, hterm] at hack

end Quorum

/-- Behind the first write, the two followers serve a write and a delete without the leader. -/
theorem quorum_serves_firstWrite : ∃ c' u term before es, Among ["b", "c"] afterFirstWrite c' ∧
    u ∈ ["b", "c"] ∧ LeadsIn c' u term ∧
    es.map (·.command) = [⟨.put, "k", some "w"⟩, ⟨.delete, "k", none⟩] ∧
    c'.committed = afterFirstWrite.committed ++ before ++ es ∧
    (∀ v ∈ ["b", "c"], ∃ q, c'.process v = some q ∧
      ∀ e ∈ c'.committed, Has q.node.log q.node.snapshot c'.committed e) ∧
    (es.map fun e => ⟨u, term, e⟩) <:+ c'.acknowledged :=
  quorum_serves afterFirstWrite_reachable (by decide) (by decide) (by decide) (by decide) rfl

end PyRaftKv
