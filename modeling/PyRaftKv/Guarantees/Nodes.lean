/-
# What holds within one node

Statements about a single running node, in every state of every run of the cluster and whenever
its lock is free.

* `memory_on_disk` -- a node built from the files is the running node again.
* `node_sound` -- snapshot, log and indexes of a node fit together, they never go back, and no
  stretch raises but to refuse a call.
-/
import PyRaftKv.Guarantees.Agreement
import PyRaftKv.Refinement.Calls

open Consensus

namespace PyRaftKv

open Cluster

/-! ## 1. Memory and disk -/

/-- What a node knows but for its role, its timer and the progress of its calls. -/
structure SameKnowledge (n n' : RaftNode) : Prop where
  term : n'.state.currentTerm = n.state.currentTerm
  vote : n'.state.votedFor = n.state.votedFor
  commit : n'.state.commitIndex = n.state.commitIndex
  applied : n'.state.lastApplied = n.state.lastApplied
  log : n'.log = n.log
  snapshot : n'.snapshot = n.snapshot
  store : n'.store = n.store

/-- Two nodes that are the same peer but for its role know the same, up to their snapshots. -/
theorem Mirrors.same {n n' : RaftNode} {p : PeerState} {r : Role} (hm : Mirrors n p)
    (hm' : Mirrors n' { p with role := r }) (hs : n'.snapshot = n.snapshot) :
    SameKnowledge n n' where
  term := hm'.term.symm.trans hm.term
  vote := hm'.vote.symm.trans hm.vote
  commit := hm'.commit.trans hm.commit.symm
  applied := hm'.applied.trans hm.applied.symm
  log := hm'.log.unique hm.log
  snapshot := hs
  store := hm'.store.unique hm.store

/-- A node starts with the snapshot that is on disk. -/
theorem init_snapshot {v : NodeId} {m : Members} {d : DataDir} {clock : Clock} {n : RaftNode}
    {ws : List Write} (h : RaftNode.init v m d clock = ⟨.ok n, ws⟩) :
    n.snapshot = d.loadSnapshot := by
  unfold RaftNode.init at h
  split at h
  · cases h
  simp only at h
  repeat' split at h
  all_goals first
    | (cases h; rfl)
    | cases h

/-- **Memory and disk agree between operations.**  Whenever the lock of a running node is free, a
node built from its data directory, at whatever time, starts without an error and has its term,
vote, commit index, log, snapshot, applied index and store. -/
theorem memory_on_disk {m : Members} {c : Cluster} (hc : Reachable m c) {v : NodeId} {p : Process}
    (hp : c.process v = some p) (clock : Clock) :
    ∃ n ws, RaftNode.init v m (c.disk v) clock = ⟨.ok n, ws⟩ ∧ SameKnowledge p.node n := by
  obtain ⟨g, hr, rfl⟩ := hc.refines
  have hl := hr.live hp
  have hpeer : ({ g.peer v with role := .follower } : PeerState).Sound g.history v :=
    (Moves.stepDown (Q := c.members.quorums) .refl).sound hr.sound.history (hr.sound.peer v) |>.peer
  obtain ⟨n, ws, hinit, hup, -⟩ := init_recovers (hl.onDisk.role .follower) hl.member rfl hpeer
    hl.log_whole clock
  refine ⟨n, ws, hinit, hl.mirrors.same hup.mirrors ?_⟩
  rw [init_snapshot hinit, hl.saved.snapshot]

/-- The leader of the first run, built anew from its files. -/
theorem memory_on_disk_firstWrite : ∃ p n ws, afterFirstWrite.process "a" = some p ∧
    RaftNode.init "a" threeMembers (afterFirstWrite.disk "a") ⟨0, 1500⟩ = ⟨.ok n, ws⟩ ∧
      SameKnowledge p.node n := by
  have hup : (afterFirstWrite.process "a").isSome = true := by decide +kernel
  obtain ⟨p, hp⟩ := Option.isSome_iff_exists.mp hup
  obtain ⟨n, ws, hinit, hsame⟩ := memory_on_disk afterFirstWrite_reachable hp ⟨0, 1500⟩
  exact ⟨p, n, ws, hp, hinit, hsame⟩

/-! ## 2. What a stretch raises -/

/-- Member `v` raises the error `e` in the stretch `op`. -/
inductive Raises (c : Cluster) (v : NodeId) (p : Process) : Op → RaftError → Prop
  | tick {timeout : Nat} {e : RaftError}
      (h : (RaftNode.tickStart ⟨c.now, timeout⟩ p.node).result = .error e) :
      Raises c v p (.tick timeout) e
  | voteAnswer {i rpc : Nat} {target : NodeId} {request : RequestVoteRequest}
      {response : RequestVoteResponse} {e : RaftError}
      (hans : c.answers[i]? = some ⟨rpc, .requestVote response⟩)
      (hrpc : c.rpcs[rpc]? = some ⟨v, target, .requestVote request⟩)
      (h : (RaftNode.tickResponse target request response p.node).result = .error e) :
      Raises c v p (.voteAnswer i) e
  | requestVote {i timeout : Nat} {source : NodeId} {r : RequestVoteRequest} {e : RaftError}
      (hrpc : c.rpcs[i]? = some ⟨source, v, .requestVote r⟩)
      (h : (RaftNode.handleRequestVote ⟨c.now, timeout⟩ r p.node).result = .error e) :
      Raises c v p (.deliver i timeout) e
  | appendEntries {i timeout : Nat} {source : NodeId} {r : AppendEntriesRequest} {e : RaftError}
      (hrpc : c.rpcs[i]? = some ⟨source, v, .appendEntries r⟩)
      (h : (RaftNode.handleAppendEntries ⟨c.now, timeout⟩ r p.node).result = .error e) :
      Raises c v p (.deliver i timeout) e
  | installSnapshot {i timeout : Nat} {source : NodeId} {r : InstallSnapshotRequest}
      {e : RaftError} (hrpc : c.rpcs[i]? = some ⟨source, v, .installSnapshot r⟩)
      (h : (RaftNode.handleInstallSnapshot ⟨c.now, timeout⟩ r p.node).result = .error e) :
      Raises c v p (.deliver i timeout) e
  | timeoutNow {i timeout : Nat} {source : NodeId} {r : TimeoutNowRequest} {e : RaftError}
      (hrpc : c.rpcs[i]? = some ⟨source, v, .timeoutNow r⟩)
      (h : (RaftNode.handleTimeoutNow r p.node).result = .error e) :
      Raises c v p (.deliver i timeout) e
  | createSnapshot {e : RaftError} (h : (RaftNode.createSnapshot p.node).result = .error e) :
      Raises c v p .createSnapshot e
  | workerBuild {f : NodeId} {id : Nat} {e : RaftError}
      (hfuture : p.futures f = some ⟨id, .queued⟩)
      (h : (RaftNode.replicateBuild f p.node).result = .error e) : Raises c v p (.workerBuild f) e
  | workerAnswer {f : NodeId} {i id rpc : Nat} {request : ReplicationRequest} {term : Int}
      {success : Bool} {e : RaftError}
      (hfuture : p.futures f = some ⟨id, .waiting rpc request⟩)
      (h : (RaftNode.replicateResponse f request term success p.node).result = .error e) :
      Raises c v p (.workerAnswer f i) e
  | submitCommands {commands : List RaftCommand} {e : RaftError}
      (h : (RaftNode.submitStart commands p.node).result = .error e) :
      Raises c v p (.submitCommands commands) e
  | replicateLog {i : Nat} {es : List LogEntry} {e : RaftError}
      (hcall : p.calls i = some (.replicateLog es))
      (h : (RaftNode.replicateLogStart p.node).result = .error e) :
      Raises c v p (.lockReplication i) e
  | transferStart {i : Nat} {targetId : Option NodeId} {e : RaftError}
      (hcall : p.calls i = some (.transferLeadership targetId))
      (h : (RaftNode.transferStart targetId p.node).result = .error e) :
      Raises c v p (.lockReplication i) e
  | beginRound {i : Nat} {call : Call} {e : RaftError} (hcall : p.calls i = some call)
      (h : (RaftNode.roundStart p.node).result = .error e) : Raises c v p (.beginRound i) e
  | submitTask {i id : Nat} {f : NodeId} {call : Call} {e : RaftError}
      (hcall : p.calls i = some call) (h : p.futures f = some ⟨id, .finished (.error e)⟩) :
      Raises c v p (.submitTask i f) e
  | collectTask {i id : Nat} {f : NodeId} {call : Call} {e : RaftError}
      (hcall : p.calls i = some call) (h : p.futures f = some ⟨id, .finished (.error e)⟩) :
      Raises c v p (.collectTask i f) e
  | replicateLogFinish {i : Nat} {es : List LogEntry} {round : Option Round} {e : RaftError}
      (hcall : p.calls i = some (.replicateRound es round))
      (h : (RaftNode.replicateLogFinish p.node).result = .error e) :
      Raises c v p (.finishRound i) e
  | transferSelect {i : Nat} {targetId : Option NodeId} {term : Int} {round : Round}
      {e : RaftError} (hcall : p.calls i = some (.transferRound targetId term (some round)))
      (h : (RaftNode.transferSelect targetId term round.results p.node).result = .error e) :
      Raises c v p (.finishRound i) e
  | submitResults {i : Nat} {es : List LogEntry} {e : RaftError}
      (hcall : p.calls i = some (.submitResults es))
      (h : (RaftNode.submitResults es p.node).result = .error e) :
      Raises c v p (.submitResults i) e
  | getStart {key : String} {e : RaftError}
      (h : (RaftNode.getStart key c.now p.node).result = .error e) :
      Raises c v p (.linearizableGet key) e
  | confirmStart {i : Nat} {key : String} {acked : List Acknowledgement} {e : RaftError}
      (hcall : p.calls i = some (.confirmRead key acked))
      (h : (RaftNode.confirmStart p.node).result = .error e) : Raises c v p (.confirmStart i) e
  | confirmPoll {i id : Nat} {f : NodeId} {call : Call} {e : RaftError}
      (hcall : p.calls i = some call) (h : p.futures f = some ⟨id, .finished (.error e)⟩) :
      Raises c v p (.confirmPoll i f) e
  | confirmFinish {i : Nat} {key : String} {acked : List Acknowledgement} {b : Barrier}
      {e : RaftError} (hcall : p.calls i = some (.confirming key acked b))
      (h : (RaftNode.confirmFinish b.readTerm b.confirmed c.now p.node).result = .error e) :
      Raises c v p (.confirmFinish i) e
  | getFinish {i : Nat} {key : String} {acked : List Acknowledgement} {term : Int} {e : RaftError}
      (hcall : p.calls i = some (.finishRead key acked term))
      (h : (RaftNode.getFinish key c.now p.node).result = .error e) : Raises c v p (.getFinish i) e
  | transferAnswer {i j rpc : Nat} {term : Int} {response : TimeoutNowResponse} {e : RaftError}
      (hcall : p.calls i = some (.transferWaiting term rpc))
      (h : (RaftNode.transferResponse term response p.node).result = .error e) :
      Raises c v p (.transferAnswer i j) e

/-- What a stretch raises to refuse a call: the node does not lead, it rejects commands or a
transfer, or a read cannot be confirmed. -/
inductive Refusal : Op → RaftError → Prop
  | notLeader (op : Op) (message : String) : Refusal op (.notLeaderError message)
  | commands (commands : List RaftCommand) {e : RaftError} (he : e.rejects = true) :
      Refusal (.submitCommands commands) e
  | transfer (i : Nat) {e : RaftError} (he : e.rejects = true) : Refusal (.lockReplication i) e
  | read (op : Op) (message : String) : Refusal op (.readQuorumError message)

section Raises

variable {m : Members} {v : NodeId} {n : RaftNode} {d : DataDir} {p : PeerState} {h : Hist}
  {f : NodeId} {op : Op} {e : RaftError}

/-- What `submit_commands` raises before it has appended anything, it raises to reject the
commands, and nothing has changed. -/
theorem submitStart_error (hl : Live m v n d p h) {commands : List RaftCommand}
    (hrun : (RaftNode.submitStart commands n).result = .error e) :
    RaftNode.submitStart commands n = ⟨.error e, n, []⟩ ∧ e.rejects = true := by
  rcases submitStart_lawful hl commands with ⟨result, hres, -, hreject⟩ | ⟨es, n', ws, h', hres, -⟩
  · obtain rfl : result = .error e := by rw [← hrun, hres]
    exact ⟨hres, hreject e rfl⟩
  · rw [hres] at hrun
    cases hrun

/-- A leader has a table after `_initialize_leader_replication`. -/
theorem initializeLeaderReplication_lead (hu : Up m v n d p h) (hlead : n.state.role = .leader) :
    ∃ r, RaftNode.initializeLeaderReplication n = ⟨.ok (), { n with replication := some r }, []⟩ ∧
      Table m v r p h := by
  obtain ⟨r, hinit, htab, hsome⟩ := initializeLeaderReplication_run hu
  obtain ⟨r, rfl⟩ := Option.isSome_iff_exists.mp (hsome hlead)
  exact ⟨r, hinit, htab r rfl⟩

theorem replicateLogStart_error (hu : Up m v n d p h)
    (hrun : (RaftNode.replicateLogStart n).result = .error e) :
    n.state.role ≠ .leader ∧ ∃ message, e = .notLeaderError message := by
  simp only [RaftNode.replicateLogStart, NodeM.bind_run, NodeM.get_run, NodeM.andThen_ok,
    NodeM.behind_nil, NodeM.ite_run, NodeM.raise_run] at hrun
  split at hrun
  · rename_i hlead
    cases hrun
    exact ⟨hlead, _, rfl⟩
  · rename_i hlead
    obtain ⟨r, hinit, -⟩ := initializeLeaderReplication_lead hu (not_not.mp hlead)
    rw [hinit] at hrun
    cases hrun

theorem roundStart_ok (hu : Up m v n d p h) :
    ∃ fs, (RaftNode.roundStart n).result = .ok fs ∧ ∀ f ∈ fs, f ∈ m.others v := by
  simp only [RaftNode.roundStart, NodeM.bind_run, NodeM.get_run, NodeM.andThen_ok,
    NodeM.behind_nil, NodeM.ite_run, NodeM.pure_run]
  split
  · exact ⟨[], rfl, by simp⟩
  · rename_i hlead
    obtain ⟨r, hinit, htab⟩ := initializeLeaderReplication_lead hu (not_not.mp hlead)
    rw [hinit]
    exact ⟨r.followers, rfl, fun f hf => htab.followers ▸ hf⟩

theorem confirmStart_cases (hu : Up m v n d p h) :
    (∃ message, (RaftNode.confirmStart n).result = .error (.notLeaderError message)) ∨
      n.state.role = .leader ∧
        (RaftNode.confirmStart n).result = .ok (n.state.currentTerm, m.others v) := by
  simp only [RaftNode.confirmStart, NodeM.bind_run, NodeM.get_run, NodeM.andThen_ok,
    NodeM.behind_nil, NodeM.ite_run, NodeM.raise_run]
  split
  · exact Or.inl ⟨_, rfl⟩
  · rename_i hlead
    have hlead := not_not.mp hlead
    obtain ⟨r, hinit, htab⟩ := initializeLeaderReplication_lead hu hlead
    rw [hinit]
    refine Or.inr ⟨hlead, ?_⟩
    rw [← htab.followers]
    rfl

theorem confirmFinish_error (hu : Up m v n d p h) {readTerm : Int} {confirmed : List NodeId}
    {now : Nat} (hrun : (RaftNode.confirmFinish readTerm confirmed now n).result = .error e) :
    ∃ message, e = .readQuorumError message := by
  simp only [RaftNode.confirmFinish, NodeM.bind_run, NodeM.get_run, NodeM.andThen_ok,
    NodeM.behind_nil, NodeM.ite_run, NodeM.raise_run, NodeM.modify_run] at hrun
  split at hrun
  · cases hrun
    exact ⟨_, rfl⟩
  split at hrun
  · cases hrun
    exact ⟨_, rfl⟩
  have hm : Mirrors { n with
      lastReadQuorumTerm := some readTerm
      lastReadQuorumTime := some now } p := { hu.mirrors with }
  rw [applyCommitted_run hm] at hrun
  cases hrun

theorem getStart_error (hu : Up m v n d p h) {key : String} {now : Nat}
    (hrun : (RaftNode.getStart key now n).result = .error e) :
    ∃ message, e = .notLeaderError message := by
  simp only [RaftNode.getStart, NodeM.bind_run, NodeM.get_run, NodeM.andThen_ok, NodeM.behind_nil,
    NodeM.ite_run, NodeM.pure_run, NodeM.raise_run, applyCommitted_run hu.mirrors] at hrun
  split at hrun
  · cases hrun
    exact ⟨_, rfl⟩
  · split at hrun <;> cases hrun

theorem getFinish_error {key : String} {now : Nat}
    (hrun : (RaftNode.getFinish key now n).result = .error e) :
    ∃ message, e = .readQuorumError message := by
  simp only [RaftNode.getFinish, NodeM.bind_run, NodeM.get_run, NodeM.andThen_ok, NodeM.behind_nil,
    NodeM.ite_run, NodeM.raise_run] at hrun
  split at hrun <;> cases hrun
  exact ⟨_, rfl⟩

theorem transferStart_error (hu : Up m v n d p h) {targetId : Option NodeId}
    (hrun : (RaftNode.transferStart targetId n).result = .error e) : e.rejects = true := by
  simp only [RaftNode.transferStart, NodeM.bind_run, NodeM.get_run, NodeM.andThen_ok,
    NodeM.behind_nil, NodeM.ite_run, NodeM.raise_run] at hrun
  split at hrun
  · cases hrun
    rfl
  · rename_i hlead
    obtain ⟨r, hinit, -⟩ := initializeLeaderReplication_lead hu (not_not.mp hlead)
    rw [hinit] at hrun
    rcases targetId with _ | target
    · cases hrun
    · simp only [NodeM.andThen_ok, NodeM.behind_nil, NodeM.bind_run, NodeM.get_run,
        NodeM.ite_run, NodeM.raise_run] at hrun
      split at hrun <;> cases hrun
      rfl

theorem transferSelect_ok (targetId : Option NodeId) (term : Int)
    (results : NodeId → Option Bool) : (RaftNode.transferSelect targetId term results n).result ≠
      .error e := by
  simp only [RaftNode.transferSelect, NodeM.bind_run, NodeM.get_run, NodeM.andThen_ok,
    NodeM.behind_nil]
  rcases n.replication with _ | r
  · simp
  · simp only [NodeM.ite_run]
    split <;> simp

theorem transferResponse_ok (term : Int) (response : TimeoutNowResponse) :
    (RaftNode.transferResponse term response n).result ≠ .error e := by
  simp only [RaftNode.transferResponse, NodeM.bind_run, NodeM.get_run, NodeM.andThen_ok,
    NodeM.behind_nil, NodeM.ite_run, NodeM.pure_run]
  split
  · simp
  rename_i hterm
  rw [not_or, not_not, not_not] at hterm
  split
  · rename_i hnew
    simp [RaftNode.becomeFollower, RaftNode.persistState, NodeM.bind_run,
      RaftState.becomeFollower_ok none (le_of_lt hnew)]
  split
  · simp
  · simp [RaftNode.becomeFollower, NodeM.bind_run, RaftState.becomeFollower_ok none hterm.2.le]

/-- A worker for one of the leader's followers has nothing to raise. -/
theorem replicateResponse_ok {request : ReplicationRequest} {term : Int} {success : Bool}
    (hf : ∀ r, n.replication = some r → f ∈ r.followers) :
    (RaftNode.replicateResponse f request term success n).result ≠ .error e := by
  simp only [RaftNode.replicateResponse, NodeM.bind_run, NodeM.get_run, NodeM.andThen_ok,
    NodeM.behind_nil]
  rcases hr : n.replication with _ | r
  · simp
  have hf := hf r hr
  simp only [NodeM.ite_run]
  split
  · simp
  split
  · rename_i hnew
    simp [RaftNode.becomeFollower, RaftNode.persistState, NodeM.bind_run,
      RaftState.becomeFollower_ok none (le_of_lt hnew)]
  rcases request with request | request
  · cases success <;> simp [NodeM.bind_run, LeaderReplication.recordSuccess,
      LeaderReplication.recordFailure, hf]
  · cases success <;> simp [NodeM.bind_run, LeaderReplication.recordSnapshotSuccess, hf]

end Raises

/-- Workers are put to the followers of their leader only, and none has anything to raise. -/
structure Staffed (c : Cluster) : Prop where
  calls : c.AllCalls fun u _ call => ∀ f ∈ call.followers, f ∈ c.members.others u
  futures : ∀ u p f future, c.process u = some p → p.futures f = some future →
    f ∈ c.members.others u ∧ ∀ e, future.state ≠ .finished (.error e)

theorem Moved.staffed {c c' : Cluster} {g g' : Grp} {a : Action} (hr : Refines c g)
    (hs : Staffed c) (hmv : Moved c g a c' g') : Staffed c' := by
  have hm := hmv.members
  refine ⟨?_, fun u q f future hq hf => ?_⟩
  · rw [hm]
    refine hmv.allCalls hs.calls (fun _ _ _ _ => id) ?_
    rintro u p op t hp ht rfl hsh call
    refine ⟨id, fun hbegun => ?_, fun old hold hnext => ?_⟩
    · cases hbegun <;> exact fun f hf => nomatch hf
    · have hu := hr.up u p hp
      cases hnext with
      | shift _ _ _ hfollowers =>
        intro f hf
        rcases hfollowers f hf with hf | ⟨fs, hfs, hf⟩
        · exact hold f hf
        · obtain ⟨fs', hfs', hall⟩ := roundStart_ok hu
          obtain rfl := Except.ok.inj (hfs'.symm.trans hfs)
          exact hall f hf
      | answer => exact fun f hf => nomatch hf
      | barrier hrun =>
        rcases confirmStart_cases hu with ⟨message, herr⟩ | ⟨-, hok⟩
        · rw [herr] at hrun
          cases hrun
        · cases hok.symm.trans hrun
          exact fun f => id
      | poll hb => cases hb <;> exact hold
      | confirm => exact fun f hf => nomatch hf
  · rw [hm]
    rcases hmv.process hq with hp | ⟨n, rfl, -⟩ | ⟨p, op, t, -, hp, ht, -, rfl⟩
    · exact hs.futures u q f future hp hf
    · cases hf
    · have hl := hr.live hp
      rcases (turn_shifts ht).futures f future hf with h | ⟨hqueued, i, call, hcall, hmem⟩ |
        ⟨state, h, hnext⟩
      · exact hs.futures u p f future hp h
      · refine ⟨hs.calls u p i call hp hcall f hmem, fun e he => ?_⟩
        rw [hqueued] at he
        cases he
      · obtain ⟨hmem, -⟩ := hs.futures u p f _ hp h
        refine ⟨hmem, fun e he => ?_⟩
        rw [he] at hnext
        cases hnext with
        | buildRaise hrun =>
          obtain ⟨result, hres, -, hok⟩ := replicateBuild_sent hl f
          obtain ⟨request, rfl⟩ := hok hmem
          rw [hres] at hrun
          cases hrun
        | answerRaise hrun =>
          exact replicateResponse_ok (fun r hr => (hl.table r hr).followers ▸ hmem) hrun

theorem Cluster.Reachable.staffed {m : Members} {c : Cluster} (hc : Reachable m c) :
    ∃ g, Refines c g ∧ c.members = m ∧ Staffed c := by
  obtain ⟨g, hr, hm, hs⟩ := Leads.invariant (I := fun c _ => c.members = m ∧ Staffed c)
    (fun hr hi hmv => ⟨hmv.members.trans hi.1, hmv.staffed hr hi.2⟩) (initial_refines m)
    ⟨rfl, ⟨fun _ _ _ _ hp => (nomatch hp), fun _ _ _ _ hp => (nomatch hp)⟩⟩ hc
  exact ⟨g, hr, hm, hs⟩

/-- **Nothing is raised but to refuse a call.** -/
theorem Refines.refusal {c : Cluster} {g : Grp} (hr : Refines c g) (hs : Staffed c) {v : NodeId}
    {p : Process} (hp : c.process v = some p) {op : Op} {e : RaftError}
    (hraise : Raises c v p op e) : Refusal op e := by
  have hl := hr.live hp
  have hu := hl.toUp
  have hknown : ∀ {i : Nat} {rpc : Rpc}, c.rpcs[i]? = some rpc → Known g.history rpc :=
    fun hi => hr.rpcs _ (List.mem_of_getElem? hi)
  have htask : ∀ {f : NodeId} {id : Nat}, p.futures f = some ⟨id, .finished (.error e)⟩ →
      Refusal op e := fun hf => absurd rfl ((hs.futures v p _ _ hp hf).2 e)
  cases hraise with
  | @tick timeout _ h =>
    obtain ⟨request, n', s, ws, h', hrun, -⟩ := tickStart_lawful hl ⟨c.now, timeout⟩
    rw [hrun] at h
    cases h
  | @voteAnswer i rpc target request response _ hans hrpc h =>
    obtain ⟨rpc', hrpc', hanswered, -⟩ := hr.answers _ (List.mem_of_getElem? hans)
    obtain rfl := Option.some.inj (hrpc.symm.trans hrpc')
    obtain ⟨hcand, -⟩ := hknown hrpc
    obtain ⟨n', s, ws, h', hrun, -⟩ := tickResponse_lawful hl target request response fun hg => by
      obtain ⟨hterm, b, hb, hbv, hbc, hbt⟩ := hanswered hg
      exact ⟨b, hb, hbv, hbc.trans hcand, hbt.trans hterm.symm⟩
    rw [hrun] at h
    cases h
  | @requestVote i timeout source r _ hrpc h =>
    obtain ⟨a, n', s, h', hrun, -⟩ := handleRequestVote_lawful hl (hknown hrpc).2 ⟨c.now, timeout⟩
    rw [hrun] at h
    cases h
  | @appendEntries i timeout source r _ hrpc h =>
    obtain ⟨a, n', ws, h', p', hrun, -⟩ := handleAppendEntries_lawful hl (hknown hrpc)
      ⟨c.now, timeout⟩
    rw [hrun] at h
    cases h
  | @installSnapshot i timeout source r _ hrpc h =>
    obtain ⟨a, n', ws, h', p', hrun, -⟩ := handleInstallSnapshot_lawful hl (hknown hrpc)
      ⟨c.now, timeout⟩
    rw [hrun] at h
    cases h
  | @timeoutNow i timeout source r _ hrpc h =>
    obtain ⟨a, n', s, ws, hrun, -⟩ := handleTimeoutNow_lawful hl r
    rw [hrun] at h
    cases h
  | createSnapshot h =>
    rcases createSnapshot_lawful hl with hrun | ⟨n', ws, hrun, -⟩ <;> rw [hrun] at h <;> cases h
  | @workerBuild f id _ hfuture h =>
    obtain ⟨result, hrun, -, hok⟩ := replicateBuild_sent hl f
    obtain ⟨request, rfl⟩ := hok (hs.futures v p f _ hp hfuture).1
    rw [hrun] at h
    cases h
  | workerAnswer hfuture h =>
    exact absurd h (replicateResponse_ok fun r hr =>
      (hl.table r hr).followers ▸ (hs.futures v p _ _ hp hfuture).1)
  | submitCommands h => exact .commands _ (submitStart_error hl h).2
  | replicateLog hcall h =>
    obtain ⟨-, message, rfl⟩ := replicateLogStart_error hu h
    exact .notLeader _ _
  | transferStart hcall h => exact .transfer _ (transferStart_error hu h)
  | beginRound hcall h =>
    obtain ⟨fs, hrun, -⟩ := roundStart_ok hu
    rw [hrun] at h
    cases h
  | submitTask hcall h => exact htask h
  | collectTask hcall h => exact htask h
  | replicateLogFinish hcall h =>
    rcases replicateLogFinish_lawful hl with hrun | ⟨n', s, h', k, R, hrun, -⟩ <;>
      rw [hrun] at h <;> cases h
  | transferSelect hcall h => exact absurd h (transferSelect_ok _ _ _)
  | @submitResults i es _ hcall h =>
    obtain ⟨results, hrun⟩ := submitResults_idle (n := p.node) es
    rw [hrun] at h
    cases h
  | getStart h =>
    obtain ⟨message, rfl⟩ := getStart_error hu h
    exact .notLeader _ _
  | confirmStart hcall h =>
    rcases confirmStart_cases hu with ⟨message, herr⟩ | ⟨-, hok⟩
    · obtain rfl := Except.error.inj (herr.symm.trans h)
      exact .notLeader _ _
    · rw [hok] at h
      cases h
  | confirmPoll hcall h => exact htask h
  | confirmFinish hcall h =>
    obtain ⟨message, rfl⟩ := confirmFinish_error hu h
    exact .read _ _
  | getFinish hcall h =>
    obtain ⟨message, rfl⟩ := getFinish_error h
    exact .read _ _
  | transferAnswer hcall h => exact absurd h (transferResponse_ok _ _)

/-! ## 3. Invariants of a node -/

/-- How the parts of a node fit together. -/
structure NodeSound (n : RaftNode) : Prop where
  boundary : n.snapshot.lastIncludedIndex = n.log.baseIndex ∧
    n.snapshot.lastIncludedTerm = n.log.baseTerm
  base_le : n.log.baseIndex ≤ n.state.lastApplied
  applied : n.state.lastApplied = n.state.commitIndex
  commit_le : n.state.commitIndex ≤ n.log.lastIndex
  indexes : ∀ (i : Nat) e, n.log.entries[i]? = some e → e.index = n.log.baseIndex + 1 + i
  terms : ∀ (i j : Nat) e e', i ≤ j → n.log.entries[i]? = some e →
    n.log.entries[j]? = some e' → e.term ≤ e'.term
  base_term : ∀ e ∈ n.log.entries, n.log.baseTerm ≤ e.term

theorem Refines.nodeSound {c : Cluster} {g : Grp} (hr : Refines c g) {v : NodeId} {p : Process}
    (hp : c.process v = some p) : NodeSound p.node := by
  have hm := (hr.up v p hp).mirrors
  have hpeer := hr.sound.peer v
  have hbase := hpeer.base_le
  have hlen := hpeer.commit_le
  have hentry : ∀ {i : Nat} {e : LogEntry}, p.node.log.entries[i]? = some e →
      (g.peer v).log[(g.peer v).base + i]? = some e := by
    intro i e he
    rwa [hm.log.entries, List.getElem?_drop] at he
  refine ⟨⟨?_, ?_⟩, ?_, ?_, ?_, fun i e he => ?_, fun i j e e' hij he he' => ?_, fun e he => ?_⟩
  · rw [hm.snapshot.index, hm.log.base]
  · rw [hm.snapshot.term, hm.log.baseTerm]
  · rw [hm.log.base, hm.applied]
    omega
  · rw [hm.applied, hm.commit]
  · rw [hm.commit, hm.log.lastIndex]
    omega
  · have := p.node.log.contiguous i e he
    omega
  · exact hr.sound.history.stamps_mono hpeer.traced (by omega) (hentry he) (hentry he')
  · obtain ⟨i, hi⟩ := List.mem_iff_getElem?.mp he
    rw [hm.log.baseTerm]
    rcases hb : (g.peer v).base with _ | b
    · exact ((hr.peer_whole v).pos e (List.mem_of_getElem? (hentry hi))).le
    · obtain ⟨x, hx⟩ : ∃ x, (g.peer v).log[b]? = some x := ⟨_, List.getElem?_eq_getElem (by omega)⟩
      rw [lastStamp_take_succ hx]
      exact hr.sound.history.stamps_mono hpeer.traced (by omega) hx (hentry hi)

/-- **Node invariants over whole runs.**  In every reachable state the parts of a running node fit
together, its commit index and its snapshot index are at least those it had at any time before, and
whatever it raises it raises to refuse a call; a member that is down starts without an error. -/
theorem node_sound {m : Members} {c : Cluster} (hc : Reachable m c) :
    (∀ v p, c.process v = some p → NodeSound p.node) ∧
    (∀ c' v p p', Leads c c' → c.process v = some p → c'.process v = some p' →
      p.node.state.commitIndex ≤ p'.node.state.commitIndex ∧
      p.node.snapshot.lastIncludedIndex ≤ p'.node.snapshot.lastIncludedIndex) ∧
    (∀ v p op e, c.process v = some p → Raises c v p op e → Refusal op e) ∧
    ∀ v clock, v ∈ m → c.process v = none →
      ∃ n ws, RaftNode.init v m (c.disk v) clock = ⟨.ok n, ws⟩ := by
  obtain ⟨g, hr, rfl, hs⟩ := hc.staffed
  refine ⟨fun v p hp => hr.nodeSound hp, fun c' v p p' hl hp hp' => ?_,
    fun v p op e hp => hr.refusal hs hp, fun v clock hv hdown => ?_⟩
  · obtain ⟨g', hr', -, -, -, -, hle⟩ := hl.follows hr
    have hm := (hr.up v p hp).mirrors
    have hm' := (hr'.up v p' hp').mirrors
    rw [hm.commit, hm'.commit, hm.snapshot.index, hm'.snapshot.index]
    exact ⟨by exact_mod_cast (hle v).1, by exact_mod_cast (hle v).2⟩
  · obtain ⟨hdisk, hrole⟩ := hr.down v hdown
    obtain ⟨n, ws, hinit, -⟩ := init_recovers hdisk hv hrole (hr.sound.peer v) (hr.peer_whole v)
      clock
    exact ⟨n, ws, hinit⟩

/-- The leader of the first run: it fits together, and replicating to a follower it does not fail.
-/
theorem node_sound_firstWrite : ∃ p, afterFirstWrite.process "a" = some p ∧ NodeSound p.node := by
  have hup : (afterFirstWrite.process "a").isSome = true := by decide +kernel
  obtain ⟨p, hp⟩ := Option.isSome_iff_exists.mp hup
  exact ⟨p, hp, (node_sound afterFirstWrite_reachable).1 "a" p hp⟩

end PyRaftKv
