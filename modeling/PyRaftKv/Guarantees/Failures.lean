/-
# A success answer after a failed write

A node with a data directory is sent requests, and any write it makes may raise.  The handler then
raises where it stands: what it has changed in memory stays changed, what it has written stays
written, and the sender tries again.

`_persist_log_change` and the test before `_persist_state` compare the node's memory before and
after the call, and not with the files.  So a call that follows a failed one finds nothing to
write (`failed_write_lost`).  Where the files hold the term and the log that the node has in
memory when a request comes, a success answer is durable (`success_durable`).
-/
import PyRaftKv.Cluster
import PyRaftKv.Refinement.Following
import PyRaftKv.Refinement.Merging

open Consensus

namespace PyRaftKv

/-! ## 1. One answer -/

/-- **What a success answer promises**: the files hold the term of the request, and for every index
up to the end of the request either the snapshot covers it or the log has an entry there, the
request's own entries among them.  Where the node already had an entry of that index and term,
`before`, it keeps it. -/
structure KeptOnDisk (v : NodeId) (d : DataDir) (before : RaftLog) (r : AppendEntriesRequest) :
    Prop where
  term : r.term ≤ (d.loadState v).currentTerm
  log : ∃ log, d.loadLog = .ok log ∧
    (∀ i : Int, 0 < i → i ≤ r.prevLogIndex + r.entries.length →
      i ≤ d.loadSnapshot.lastIncludedIndex ∨ (log.get i).isSome) ∧
    ∀ e ∈ r.entries, e.index ≤ d.loadSnapshot.lastIncludedIndex ∨
      ∃ e', log.get e.index = some e' ∧ e'.term = e.term ∧
        (e' = e ∨ before.get e.index = some e')

/-- The files hold the term and the log that the node has in memory. -/
structure InStep (n : RaftNode) (d : DataDir) : Prop where
  term : (d.loadState n.nodeId).currentTerm = n.state.currentTerm
  log : d.loadLog = .ok n.log

/-- The checks of the handler let a request through. -/
def AppendEntriesRequest.Passes (r : AppendEntriesRequest) (n : RaftNode) : Prop :=
  n.state.currentTerm ≤ r.term ∧ n.log.termAt r.prevLogIndex = some r.prevLogTerm

/-- An accepted request: the log has what it brings, and the node is in its term. -/
theorem handleAppendEntries_accepted {state state' : RaftState} {log log' : RaftLog}
    {r : AppendEntriesRequest} {store store' : KVStore} {a : AppendEntriesResponse}
    (hwf : Contiguous r.prevLogIndex r.entries)
    (hrun : PyRaftKv.handleAppendEntries state log r store = (.ok a, state', log', store'))
    (hsuccess : a.success = true) :
    state'.currentTerm = r.term ∧ log'.baseIndex = log.baseIndex ∧ log'.baseTerm = log.baseTerm ∧
      (∀ i : Int, log.baseIndex < i → i ≤ r.prevLogIndex + r.entries.length →
        (log'.get i).isSome) ∧
      ∀ e ∈ r.entries, ∃ e', log'.get e.index = some e' ∧ e'.term = e.term ∧
        (e' = e ∨ log.get e.index = some e') := by
  obtain ⟨-, hprev⟩ := handleAppendEntries_success hrun hsuccess
  obtain ⟨hs, hstate⟩ := handleAppendEntries_commits hwf hrun hsuccess
  refine ⟨?_, hs.baseIndex, hs.baseTerm, fun i hi hle => ?_, hs.window⟩
  · rw [hstate]
    split <;> rfl
  by_cases hip : i ≤ r.prevLogIndex
  · rw [hs.below i hip]
    exact RaftLog.get_isSome hi (hip.trans (RaftLog.reaches_of_termAt hprev).2)
  · -- the entry of the request at this index
    obtain ⟨j, hj⟩ : ∃ j : Nat, i = r.prevLogIndex + j + 1 := ⟨(i - r.prevLogIndex - 1).toNat,
      by omega⟩
    have hjlt : j < r.entries.length := by omega
    have he := hwf j _ (List.getElem?_eq_getElem hjlt)
    obtain ⟨e', hget, -⟩ := hs.window _ (List.getElem_mem hjlt)
    rw [hj, ← he, hget]
    rfl

/-! ## 2. A node that is sent requests -/

/-- The handler of a request. -/
def serve (clock : Clock) : Request → NodeM Response
  | .requestVote r => do return .requestVote (← RaftNode.handleRequestVote clock r)
  | .appendEntries r => do return .appendEntries (← RaftNode.handleAppendEntries clock r)
  | .installSnapshot r => do return .installSnapshot (← RaftNode.handleInstallSnapshot clock r)
  | .timeoutNow r => do return .timeoutNow (← RaftNode.handleTimeoutNow r)

/-- The entries of an AppendEntries follow its previous index. -/
def Request.WellFormed : Request → Prop
  | .appendEntries r => Contiguous r.prevLogIndex r.entries
  | _ => True

instance (request : Request) : Decidable request.WellFormed := by
  cases request <;> unfold Request.WellFormed <;> infer_instance

/-- A node, its files, and the AppendEntries it has just answered with success, with the log it had
before. -/
structure Session where
  node : RaftNode
  disk : DataDir
  answered : Option (RaftLog × AppendEntriesRequest) := none

inductive Event
  /-- The handler runs to its end. -/
  | answer (clock : Clock) (request : Request)
  /-- The call that asks for durable effect `effect` raises, with `done` effects on disk: those
  before it, and the records that it has appended. -/
  | raise (clock : Clock) (request : Request) (effect done : Nat)

def Write.isAppend : Write → Bool
  | .appendLog _ => true
  | _ => false

namespace Session

/-- The node after a call, if its files take every write. -/
def after (s : Session) (clock : Clock) (request : Request) : Session :=
  let o := serve clock request s.node
  { node := o.node
    disk := s.disk.writes o.writes
    answered := match request, o.result with
      | .appendEntries r, .ok (.appendEntries a) => if a.success then some (s.node.log, r) else none
      | _, _ => none }

def step (s : Session) : Event → Option Session
  | .answer clock request => if request.WellFormed then some (s.after clock request) else none
  | .raise clock request effect done =>
    let o := serve clock request s.node
    match o.effects[effect]? with
    | none => none
    | some e =>
      if request.WellFormed ∧ effect ≤ done ∧
          ((o.writes.take done).drop effect).all Write.isAppend then
        some { node := e.node, disk := s.disk.writes (o.writes.take done) }
      else none

/-- A node that has just started on its files. -/
def Started (s : Session) : Prop :=
  ∃ v m d clock n ws, RaftNode.init v m d clock = ⟨.ok n, ws⟩ ∧
    s = { node := n, disk := d.writes ws }

/-- What the last call answered with success is durable. -/
def AnswerDurable (s : Session) : Prop :=
  ∀ before r, s.answered = some (before, r) → KeptOnDisk s.node.nodeId s.disk before r

/-- An AppendEntries that is answered and passes the checks comes when the files are in step with
the node. -/
def ServesInStep (s : Session) : Event → Prop
  | .answer _ (.appendEntries r) => r.Passes s.node → InStep s.node s.disk
  | _ => True

def Step (s s' : Session) : Prop := ∃ event, s.step event = some s'

def StepInStep (s s' : Session) : Prop := ∃ event, s.ServesInStep event ∧ s.step event = some s'

end Session

/-! ## 3. Where the boundaries are -/

/-- The log begins no later than the node's snapshot ends, and the snapshot in the files reaches at
least as far. -/
structure Anchored (n : RaftNode) (d : DataDir) : Prop where
  log : n.log.baseIndex ≤ n.snapshot.lastIncludedIndex
  disk : n.snapshot.lastIncludedIndex ≤ d.loadSnapshot.lastIncludedIndex

/-- Two nodes with one boundary. -/
structure SameBoundary (n n' : RaftNode) : Prop where
  base : n'.log.baseIndex = n.log.baseIndex
  snapshot : n'.snapshot = n.snapshot

theorem SameBoundary.refl (n : RaftNode) : SameBoundary n n := ⟨rfl, rfl⟩

theorem SameBoundary.trans {n n' n'' : RaftNode} (h : SameBoundary n n')
    (h' : SameBoundary n' n'') : SameBoundary n n'' :=
  ⟨h'.base.trans h.base, h'.snapshot.trans h.snapshot⟩

/-- A write that leaves the snapshot file alone. -/
def Write.KeepsSnapshot (w : Write) : Prop :=
  ∀ d : DataDir, (d.write w).loadSnapshot = d.loadSnapshot

theorem writes_keepSnapshot : ∀ {ws : List Write}, (∀ w ∈ ws, w.KeepsSnapshot) → ∀ d : DataDir,
    (d.writes ws).loadSnapshot = d.loadSnapshot
  | [], _, _ => rfl
  | w :: ws, h, d => by
    rw [DataDir.writes_cons, writes_keepSnapshot (fun w hw => h w (List.mem_cons_of_mem _ hw)),
      h w List.mem_cons_self]

/-- A stretch that moves no boundary, wherever it is stopped. -/
structure Unmoved {α : Type} (n : RaftNode) (o : Outcome α) : Prop where
  node : SameBoundary n o.node
  effects : ∀ e ∈ o.effects, SameBoundary n e.node ∧ e.write.KeepsSnapshot

def NodeM.Unmoving {α : Type} (m : NodeM α) : Prop := ∀ n, Unmoved n (m n)

namespace NodeM.Unmoving

variable {α β : Type}

theorem bind {m : NodeM α} {f : α → NodeM β} (hm : Unmoving m) (hf : ∀ a, Unmoving (f a)) :
    Unmoving (m >>= f) := by
  intro n
  have h := hm n
  rw [bind_run]
  rcases hrun : m n with ⟨_ | a, n', ws⟩
  · rw [hrun] at h
    exact ⟨h.node, h.effects⟩
  · rw [hrun] at h
    have h' := hf a n'
    refine ⟨h.node.trans h'.node, fun e he => ?_⟩
    rcases List.mem_append.mp he with he | he
    · exact h.effects e he
    · exact ⟨h.node.trans (h'.effects e he).1, (h'.effects e he).2⟩

theorem quiet {m : NodeM α} (hm : ∀ n, SameBoundary n (m n).node ∧ (m n).effects = []) :
    Unmoving m := fun n => ⟨(hm n).1, by simp [(hm n).2]⟩

theorem get : Unmoving NodeM.get := quiet fun n => ⟨.refl n, rfl⟩

theorem pure (a : α) : Unmoving (Pure.pure a : NodeM α) := quiet fun n => ⟨.refl n, rfl⟩

theorem raise (e : RaftError) : Unmoving (NodeM.raise e : NodeM α) := quiet fun n => ⟨.refl n, rfl⟩

theorem lift (x : Except RaftError α) : Unmoving (NodeM.lift x) := by
  rcases x with e | a
  · exact raise e
  · exact pure a

theorem modify {f : RaftNode → RaftNode} (hf : ∀ n, SameBoundary n (f n)) :
    Unmoving (NodeM.modify f) := quiet fun n => ⟨hf n, rfl⟩

theorem persist {ws : List Write} (hws : ∀ w ∈ ws, w.KeepsSnapshot) :
    Unmoving (NodeM.persist ws) := by
  refine fun n => ⟨.refl n, fun e he => ?_⟩
  obtain ⟨w, hw, rfl⟩ := List.mem_map.mp he
  exact ⟨.refl n, hws w hw⟩

theorem ite {c : Prop} [Decidable c] {m m' : NodeM α} (hm : Unmoving m) (hm' : Unmoving m') :
    Unmoving (if c then m else m') := by
  split
  · exact hm
  · exact hm'

end NodeM.Unmoving

section Handlers

open NodeM (Unmoving)

theorem keepsSnapshot_saveState (state : RaftState) :
    ∀ w ∈ saveState state, w.KeepsSnapshot := by
  intro w hw
  rw [List.mem_singleton.mp hw]
  exact fun _ => rfl

theorem persistState_unmoving : Unmoving RaftNode.persistState :=
  .bind .get fun _ => .persist (keepsSnapshot_saveState _)

theorem persistTerm_unmoving (previousTerm : Int) : Unmoving (RaftNode.persistTerm previousTerm) :=
  .bind .get fun _ => .ite persistState_unmoving (.pure ())

theorem becomeFollower_unmoving (term : Int) (leaderId : Option NodeId) :
    Unmoving (RaftNode.becomeFollower term leaderId) :=
  .bind .get fun _ => .bind (.lift _) fun _ => .modify fun _ => ⟨rfl, rfl⟩

theorem applyCommitted_unmoving : Unmoving RaftNode.applyCommitted :=
  .quiet fun _ => ⟨⟨rfl, rfl⟩, rfl⟩

theorem dropReplication_unmoving : Unmoving (NodeM.modify RaftNode.dropReplication) := by
  refine .modify fun n => ?_
  obtain ⟨replication, heq⟩ := dropReplication_only n
  rw [heq]
  exact ⟨rfl, rfl⟩

theorem persistLogChange_unmoving (before after : List LogEntry) :
    Unmoving (RaftNode.persistLogChange before after) := by
  have happend : ∀ es, ∀ w ∈ appendLogEntries es, w.KeepsSnapshot := by
    intro es w hw
    obtain ⟨e, -, rfl⟩ := List.mem_map.mp hw
    exact fun _ => rfl
  unfold RaftNode.persistLogChange
  refine .ite (.pure _) ?_
  simp only
  split
  · exact .persist (happend _)
  · intro n
    rw [NodeM.bind_run]
    unfold replaceLogSuffix
    split
    · exact ⟨.refl n, by simp⟩
    · refine Unmoving.persist (fun w hw => ?_) n
      rcases List.mem_cons.mp hw with rfl | hw
      · exact fun _ => rfl
      · exact happend _ w hw

theorem handleRequestVote_unmoving (clock : Clock) (r : RequestVoteRequest) :
    Unmoving (RaftNode.handleRequestVote clock r) := by
  refine .bind .get fun n => .bind (.lift _) fun _ => .bind (.modify fun _ => ⟨rfl, rfl⟩) fun _ =>
    ?_
  refine .bind persistState_unmoving fun _ => ?_
  exact .ite (.bind (.modify fun _ => ⟨rfl, rfl⟩) fun _ => .bind dropReplication_unmoving fun _ =>
    .pure _) (.bind dropReplication_unmoving fun _ => .pure _)

theorem handleTimeoutNow_unmoving (r : TimeoutNowRequest) :
    Unmoving (RaftNode.handleTimeoutNow r) := by
  refine .bind .get fun n => .ite (.pure _) ?_
  refine .ite (.bind (becomeFollower_unmoving _ _) fun _ => ?_) ?_
  all_goals
    refine .bind .get fun _ => .bind (persistTerm_unmoving _) fun _ => ?_
    exact .ite (.bind (.modify fun _ => ⟨rfl, rfl⟩) fun _ => .pure _) (.pure _)

theorem handleAppendEntries_base (state : RaftState) (log : RaftLog) (r : AppendEntriesRequest)
    (store : KVStore) :
    (PyRaftKv.handleAppendEntries state log r store).2.2.1.baseIndex = log.baseIndex ∧
      (PyRaftKv.handleAppendEntries state log r store).2.2.1.baseTerm = log.baseTerm := by
  unfold PyRaftKv.handleAppendEntries
  split
  · exact ⟨rfl, rfl⟩
  split
  · exact ⟨rfl, rfl⟩
  split
  · exact ⟨rfl, rfl⟩
  split
  · exact ⟨rfl, rfl⟩
  have hbase := syncEntries_base r.entries log
  split
  · rename_i hsync
    rw [hsync] at hbase
    exact hbase
  · rename_i hsync
    rw [hsync] at hbase
    split <;> exact hbase

theorem handleAppendEntries_unmoving (clock : Clock) (r : AppendEntriesRequest) :
    Unmoving (RaftNode.handleAppendEntries clock r) := by
  intro n
  unfold RaftNode.handleAppendEntries
  simp only [NodeM.bind_run, NodeM.get_run, NodeM.andThen_ok, NodeM.behind_nil, NodeM.modify_run]
  have hbase := handleAppendEntries_base n.state n.log r n.store
  rcases hrun : PyRaftKv.handleAppendEntries n.state n.log r n.store with
    ⟨result, state, log, store⟩
  rw [hrun] at hbase
  have hfirst : SameBoundary n { n with state, log, store } := ⟨hbase.1, rfl⟩
  have hdrop (a : AppendEntriesResponse) :
      Unmoving (do NodeM.modify RaftNode.dropReplication; return a) :=
    .bind dropReplication_unmoving fun _ => .pure _
  have hend (a : AppendEntriesResponse) : Unmoving (do
      if a.success then
        NodeM.modify fun n => { n with timer := .reset clock.now clock.timeout }
      NodeM.modify RaftNode.dropReplication
      return a) :=
    .ite (.bind (.modify fun n => ⟨rfl, rfl⟩) fun _ => hdrop a) (hdrop a)
  have hrest : Unmoved { n with state, log, store } _ :=
    Unmoving.bind (.lift result) (fun a => .bind (persistLogChange_unmoving n.log.entries
      log.entries) fun _ => .ite (c := state.persisted ≠ n.state.persisted)
        (.bind persistState_unmoving fun _ => hend a) (hend a)) { n with state, log, store }
  exact ⟨hfirst.trans hrest.node, fun e he =>
    ⟨hfirst.trans (hrest.effects e he).1, (hrest.effects e he).2⟩⟩

/-! ## 4. Every effect leaves the boundaries in order -/

/-- The boundaries are in order at the end of a stretch and wherever it is stopped. -/
structure AnchoredThrough {α : Type} (d : DataDir) (o : Outcome α) : Prop where
  final : Anchored o.node (d.writes o.writes)
  stopped : ∀ k e, o.effects[k]? = some e → Anchored e.node (d.writes (o.writes.take k))

theorem Unmoved.anchored {α : Type} {n : RaftNode} {d : DataDir} {o : Outcome α}
    (h : Unmoved n o) (ha : Anchored n d) : AnchoredThrough d o := by
  have hsame : ∀ n', SameBoundary n n' → ∀ ws : List Write, (∀ w ∈ ws, w.KeepsSnapshot) →
      Anchored n' (d.writes ws) := by
    intro n' hn' ws hws
    constructor
    · rw [hn'.base, hn'.snapshot]
      exact ha.log
    · rw [hn'.snapshot, writes_keepSnapshot hws]
      exact ha.disk
  have hwrites : ∀ w ∈ o.writes, w.KeepsSnapshot := by
    intro w hw
    obtain ⟨e, he, rfl⟩ := List.mem_map.mp hw
    exact (h.effects e he).2
  refine ⟨hsame _ h.node _ hwrites, fun k e he => ?_⟩
  exact hsame _ (h.effects e (List.mem_of_getElem? he)).1 _ fun w hw =>
    hwrites w (List.take_subset _ _ hw)

theorem installSnapshotBoundary_base {log log' : RaftLog} {index term : Int}
    (h : log.installSnapshotBoundary index term = .ok log') : log'.baseIndex = index := by
  unfold RaftLog.installSnapshotBoundary at h
  split at h
  · cases h
  split at h
  · rename_i heq
    split at h <;> cases h
    exact heq.symm
  split at h <;> cases h <;> rfl

theorem RaftSnapshot.new_index {index term : Int} {state : Dict} {snapshot : RaftSnapshot}
    (h : RaftSnapshot.new index term state = .ok snapshot) :
    snapshot.lastIncludedIndex = index := by
  unfold RaftSnapshot.new at h
  split at h
  · cases h
  split at h
  · cases h
  split at h <;> cases h
  rfl

theorem AnchoredThrough.quiet {α : Type} {d : DataDir} {o : Outcome α} (he : o.effects = [])
    (ha : Anchored o.node d) : AnchoredThrough d o := by
  have hw : o.writes = [] := by rw [Outcome.writes, he, List.map_nil]
  exact ⟨by rw [hw]; exact ha, by simp [he]⟩

theorem AnchoredThrough.bind {α β : Type} {m : NodeM α} {f : α → NodeM β} {n : RaftNode}
    {d : DataDir} (hm : AnchoredThrough d (m n)) (hf : ∀ a, (m n).result = .ok a →
      AnchoredThrough (d.writes (m n).writes) (f a (m n).node)) :
    AnchoredThrough d ((m >>= f) n) := by
  rw [NodeM.bind_run]
  rcases hrun : m n with ⟨_ | a, n', es⟩
  · rw [hrun] at hm
    exact ⟨hm.final, hm.stopped⟩
  · rw [hrun] at hm
    have hf := hf a (by rw [hrun])
    rw [hrun] at hf
    have hlen : (Outcome.writes ⟨(.ok a : Except RaftError α), n', es⟩).length = es.length :=
      List.length_map _
    have hwrites : (Outcome.behind es (f a n')).writes =
        Outcome.writes ⟨(.ok a : Except RaftError α), n', es⟩ ++ (f a n').writes :=
      List.map_append
    constructor
    · change Anchored (f a n').node (d.writes (Outcome.behind es (f a n')).writes)
      rw [hwrites, DataDir.writes_append]
      exact hf.final
    · intro k e (he : (es ++ (f a n').effects)[k]? = some e)
      change Anchored e.node (d.writes ((Outcome.behind es (f a n')).writes.take k))
      rw [hwrites]
      rcases Nat.lt_or_ge k es.length with hk | hk
      · rw [List.getElem?_append_left hk] at he
        rw [List.take_append_of_le_length (by omega)]
        exact hm.stopped k e he
      · rw [List.getElem?_append_right hk] at he
        rw [List.take_append, List.take_of_length_le (by omega), hlen, DataDir.writes_append]
        exact hf.stopped _ e he

/-- A stretch that leaves the boundaries in order, wherever it starts. -/
def NodeM.Anchoring {α : Type} (m : NodeM α) : Prop :=
  ∀ n d, Anchored n d → AnchoredThrough d (m n)

theorem NodeM.Unmoving.anchoring {α : Type} {m : NodeM α} (hm : Unmoving m) : m.Anchoring :=
  fun n _ ha => (hm n).anchored ha

theorem AnchoredThrough.get_bind {α : Type} {f : RaftNode → NodeM α} {n : RaftNode} {d : DataDir}
    (hf : AnchoredThrough d (f n n)) : AnchoredThrough d ((NodeM.get >>= f) n) := by
  rwa [NodeM.bind_run, NodeM.get_run, NodeM.andThen_ok, NodeM.behind_nil]

theorem AnchoredThrough.lift_bind {α β : Type} {x : Except RaftError α} {f : α → NodeM β}
    {n : RaftNode} {d : DataDir} (ha : Anchored n d)
    (hf : ∀ a, x = .ok a → AnchoredThrough d (f a n)) :
    AnchoredThrough d ((NodeM.lift x >>= f) n) := by
  rcases x with e | a
  · exact .quiet rfl ha
  · exact hf a rfl

/-- **The snapshot is on disk before the log begins behind it.** -/
theorem handleInstallSnapshot_anchored (clock : Clock) (r : InstallSnapshotRequest) :
    (RaftNode.handleInstallSnapshot clock r).Anchoring := by
  intro n d ha
  have hrefuse (previousTerm : Int) (a : InstallSnapshotResponse) :
      Unmoving (do RaftNode.persistTerm previousTerm; return a) :=
    .bind (persistTerm_unmoving _) fun _ => .pure _
  have htimer (a : InstallSnapshotResponse) : Unmoving (do
      NodeM.modify fun n => { n with timer := .reset clock.now clock.timeout }
      return a) := .bind (.modify fun _ => ⟨rfl, rfl⟩) fun _ => .pure _
  unfold RaftNode.handleInstallSnapshot
  refine .get_bind ?_
  rw [NodeM.ite_run]
  split
  · exact .quiet rfl ha
  refine .bind ((becomeFollower_unmoving _ _ n).anchored ha) fun _ _ => ?_
  have ha₁ := ((becomeFollower_unmoving r.term (some r.leaderId) n).anchored ha).final
  revert ha₁
  generalize (RaftNode.becomeFollower r.term (some r.leaderId) n).node = n₁
  generalize d.writes (RaftNode.becomeFollower r.term (some r.leaderId) n).writes = d₁
  intro ha₁
  refine .bind (.quiet rfl ⟨ha₁.log, ha₁.disk⟩) fun _ _ => .get_bind ?_
  have ha₂ : Anchored { n₁ with replication := none } d₁ := ⟨ha₁.log, ha₁.disk⟩
  change AnchoredThrough d₁ _
  rw [NodeM.modify_run]
  simp only
  rw [NodeM.ite_run]
  split
  · exact (hrefuse _ _).anchoring _ _ ha₂
  rw [NodeM.ite_run]
  split
  · exact (Unmoving.bind (persistTerm_unmoving _) fun _ => htimer _).anchoring _ _ ha₂
  rename_i hcovered
  rw [NodeM.ite_run]
  split
  · exact (hrefuse _ _).anchoring _ _ ha₂
  refine .lift_bind ha₂ fun snapshot hsnapshot => .lift_bind ha₂ fun copied _ => ?_
  rcases hlog : copied.installSnapshotBoundary r.lastIncludedIndex r.lastIncludedTerm with e | log
  · exact (hrefuse _ _).anchoring _ _ ha₂
  simp only
  rw [NodeM.ite_run]
  split
  · exact (hrefuse _ _).anchoring _ _ ha₂
  have hindex := RaftSnapshot.new_index hsnapshot
  have hbase := installSnapshotBoundary_base hlog
  -- the snapshot file first, and then the log that begins where it ends
  have ha₃ : Anchored { n₁ with replication := none } (d₁.writes (saveSnapshot snapshot)) :=
    ⟨ha₂.log, by rw [← hindex] at hcovered; exact not_lt.mp hcovered⟩
  refine .bind (m := NodeM.persist (saveSnapshot snapshot)) ⟨ha₃, fun k e he => ?_⟩ fun _ _ => ?_
  · rcases k with _ | k
    · cases he
      exact ha₂
    · simp [saveSnapshot, NodeM.persist] at he
  refine .bind (m := NodeM.persist (saveLog log)) (d := d₁.writes (saveSnapshot snapshot))
    ⟨⟨ha₃.log, ha₃.disk⟩, fun k e he => ?_⟩ fun _ _ => ?_
  · rcases k with _ | k
    · cases he
      exact ha₃
    · simp [saveLog, NodeM.persist] at he
  refine .bind (.quiet rfl ⟨?_, ?_⟩) fun _ _ => ?_
  · exact (hbase.trans hindex.symm).le
  · exact le_rfl
  · exact (Unmoving.bind applyCommitted_unmoving fun _ => .bind persistState_unmoving fun _ =>
      htimer _).anchoring _ _ ⟨(hbase.trans hindex.symm).le, le_rfl⟩

theorem serve_anchored (clock : Clock) (request : Request) : (serve clock request).Anchoring := by
  have hthen {α : Type} {m : NodeM α} (f : α → Response) (hm : m.Anchoring) :
      (do return f (← m) : NodeM Response).Anchoring :=
    fun n d ha => .bind (hm n d ha) fun _ _ => .quiet rfl (hm n d ha).final
  cases request with
  | requestVote r => exact hthen _ (handleRequestVote_unmoving clock r).anchoring
  | appendEntries r => exact hthen _ (handleAppendEntries_unmoving clock r).anchoring
  | installSnapshot r => exact hthen _ (handleInstallSnapshot_anchored clock r)
  | timeoutNow r => exact hthen _ (handleTimeoutNow_unmoving r).anchoring

end Handlers

/-- A start moves the log up to the snapshot, or finds that it begins there already. -/
theorem init_anchored {v : NodeId} {m : Members} {d : DataDir} {clock : Clock} {n : RaftNode}
    {ws : List Write} (h : RaftNode.init v m d clock = ⟨.ok n, ws⟩) :
    Anchored n (d.writes ws) := by
  unfold RaftNode.init at h
  split at h
  · cases h
  simp only at h
  split at h
  · cases h
  rename_i journal _
  split at h
  · cases h
  rename_i hle
  split at h
  · cases h
  split at h
  · cases h
  rename_i log ws₁ hlog
  -- the log of the node, and the record that brings the journal there
  obtain ⟨hbase, hkeep₁⟩ : log.baseIndex ≤ d.loadSnapshot.lastIncludedIndex ∧
      ∀ w ∈ ws₁, w.KeepsSnapshot := by
    split at hlog
    · rcases hinst : journal.installSnapshotBoundary d.loadSnapshot.lastIncludedIndex
        d.loadSnapshot.lastIncludedTerm with e | log'
      · rw [hinst] at hlog
        cases hlog
      · rw [hinst] at hlog
        cases hlog
        refine ⟨(installSnapshotBoundary_base hinst).le, fun w hw => ?_⟩
        rw [List.mem_singleton.mp hw]
        exact fun _ => rfl
    · cases hlog
      exact ⟨not_lt.mp hle, by simp⟩
  have hend : ∀ ws₂ : List Write, (∀ w ∈ ws₂, w.KeepsSnapshot) →
      d.loadSnapshot.lastIncludedIndex ≤ (d.writes ws₂).loadSnapshot.lastIncludedIndex := by
    intro ws₂ hkeep₂
    rw [writes_keepSnapshot hkeep₂]
  split at h
  · -- the commit index is raised to the snapshot's
    split at h
    · cases h
    split at h
    · cases h
    cases h
    refine ⟨hbase, hend _ fun w hw => ?_⟩
    rcases List.mem_append.mp hw with hw | hw
    · exact hkeep₁ w hw
    · exact keepsSnapshot_saveState _ w hw
  · split at h
    · cases h
    split at h
    · cases h
    cases h
    exact ⟨hbase, hend _ hkeep₁⟩

/-! ## 5. Runs -/

/-- What the handler leaves and saves: the records of the log, and the state record if it is another
one. -/
theorem handleAppendEntries_writes (clock : Clock) {n : RaftNode} {r : AppendEntriesRequest}
    {b : AppendEntriesResponse} {state : RaftState} {log : RaftLog} {store : KVStore}
    {ws : List Write}
    (hrun : PyRaftKv.handleAppendEntries n.state n.log r n.store = (.ok b, state, log, store))
    (hpersist : RaftNode.persistLogChange n.log.entries log.entries
      { n with state, log, store } = ⟨.ok (), { n with state, log, store },
        ws.map fun w => ⟨{ n with state, log, store }, w⟩⟩) :
    (RaftNode.handleAppendEntries clock r n).result = .ok b ∧
      (∃ replication timer, (RaftNode.handleAppendEntries clock r n).node =
        { n with state, log, store, replication, timer }) ∧
      ∃ ws₂, (RaftNode.handleAppendEntries clock r n).writes = ws ++ ws₂ ∧
        (ws₂ = saveState state ∨ ws₂ = [] ∧ state.persisted = n.state.persisted) := by
  simp only [RaftNode.handleAppendEntries, NodeM.bind_run, NodeM.get_run, NodeM.andThen_ok,
    NodeM.behind_nil, NodeM.modify_run, hrun, NodeM.lift_ok_run, hpersist, NodeM.ite_run,
    RaftNode.persistState, NodeM.persist_run, NodeM.pure_run]
  by_cases hsave : state.persisted ≠ n.state.persisted
  · rw [if_pos hsave]
    refine ⟨?_, ?_, saveState state, ?_, Or.inl rfl⟩
    · split <;> rfl
    · split
      · obtain ⟨replication, heq⟩ := dropReplication_only _
        exact ⟨replication, _, heq⟩
      · obtain ⟨replication, heq⟩ := dropReplication_only _
        exact ⟨replication, _, heq⟩
    · split <;> simp only [Outcome.behind, Outcome.writes, List.map_append,
        NodeM.writes_of_persist, List.append_nil]
  · rw [if_neg hsave]
    refine ⟨?_, ?_, [], ?_, Or.inr ⟨rfl, not_not.mp hsave⟩⟩
    · split <;> rfl
    · split
      · obtain ⟨replication, heq⟩ := dropReplication_only _
        exact ⟨replication, _, heq⟩
      · obtain ⟨replication, heq⟩ := dropReplication_only _
        exact ⟨replication, _, heq⟩
    · split <;> simp only [Outcome.behind, Outcome.writes, NodeM.writes_of_persist,
        List.append_nil]

/-- A call that returns has let its request through, or says so. -/
theorem passes_of_success {n : RaftNode} {clock : Clock} {r : AppendEntriesRequest}
    {a : AppendEntriesResponse} (hres : (RaftNode.handleAppendEntries clock r n).result = .ok a)
    (hsuccess : a.success = true) : r.Passes n := by
  rcases hrun : PyRaftKv.handleAppendEntries n.state n.log r n.store with
    ⟨_ | b, state, log, store⟩
  · simp only [RaftNode.handleAppendEntries, NodeM.bind_run, NodeM.get_run, NodeM.andThen_ok,
      NodeM.behind_nil, NodeM.modify_run, hrun] at hres
    cases hres
  -- what is left of the call returns the answer of the handler
  have hb : b = a := by
    simp only [RaftNode.handleAppendEntries, NodeM.bind_run, NodeM.get_run, NodeM.andThen_ok,
      NodeM.behind_nil, NodeM.modify_run, hrun, NodeM.lift_ok_run] at hres
    rcases hpersist : RaftNode.persistLogChange n.log.entries log.entries
        { n with state, log, store } with ⟨_ | _, n', es⟩
    · rw [hpersist] at hres
      cases hres
    · simp only [hpersist, NodeM.andThen_ok, NodeM.ite_run, RaftNode.persistState, NodeM.bind_run,
        NodeM.get_run, NodeM.persist_run, NodeM.pure_run, NodeM.modify_run] at hres
      split at hres <;> split at hres <;> cases hres <;> rfl
  subst hb
  exact handleAppendEntries_success hrun hsuccess

/-- An AppendEntries that a node in step with its files answers with success. -/
theorem handleAppendEntries_durable {n : RaftNode} {d : DataDir} {clock : Clock}
    {r : AppendEntriesRequest} {a : AppendEntriesResponse} (v : NodeId) (ha : Anchored n d)
    (hin : InStep n d) (hwf : Contiguous r.prevLogIndex r.entries)
    (hres : (RaftNode.handleAppendEntries clock r n).result = .ok a) (hsuccess : a.success = true) :
    KeptOnDisk v (d.writes (RaftNode.handleAppendEntries clock r n).writes) n.log r := by
  have hdisk := hin.term
  rw [DataDir.loadState_eq] at hdisk
  have hbase := handleAppendEntries_base n.state n.log r n.store
  rcases hrun : PyRaftKv.handleAppendEntries n.state n.log r n.store with
    ⟨_ | b, state, log, store⟩
  · simp only [RaftNode.handleAppendEntries, NodeM.bind_run, NodeM.get_run, NodeM.andThen_ok,
      NodeM.behind_nil, NodeM.modify_run, hrun] at hres
    cases hres
  rw [hrun] at hbase
  obtain ⟨ws₁, hpersist, hlog, hstate, hsnap⟩ := persistLogChange_loads hin.log hbase.1 hbase.2
    { n with state, log, store }
  obtain ⟨hok, -, ws₂, hwrites, hws₂⟩ := handleAppendEntries_writes clock hrun hpersist
  obtain rfl : b = a := Except.ok.inj (hok.symm.trans hres)
  obtain ⟨hterm, -, -, hfull, hheld⟩ := handleAppendEntries_accepted hwf hrun hsuccess
  rw [hwrites, DataDir.writes_append]
  -- the state record changes neither the log nor the snapshot
  have hlog' : ((d.writes ws₁).writes ws₂).loadLog = .ok log := by
    rcases hws₂ with rfl | ⟨rfl, -⟩
    · exact hlog
    · exact hlog
  have hsnap' : ((d.writes ws₁).writes ws₂).loadSnapshot = d.loadSnapshot := by
    rcases hws₂ with rfl | ⟨rfl, -⟩
    · exact hsnap
    · exact hsnap
  have hsaved : (((d.writes ws₁).writes ws₂).loadState v).currentTerm = state.currentTerm := by
    rw [DataDir.loadState_eq]
    rcases hws₂ with rfl | ⟨rfl, hsame⟩
    · rfl
    · have hold : state.currentTerm = n.state.currentTerm :=
        congrArg PersistedState.currentTerm hsame
      rw [DataDir.writes_nil, hstate, hold]
      exact hdisk
  refine ⟨?_, log, hlog', fun i _ hi => ?_, fun e he => Or.inr (hheld e he)⟩
  · rw [hsaved, hterm]
  · rw [hsnap']
    rcases Int.lt_or_le n.log.baseIndex i with hlt | hle
    · exact Or.inr (hfull i hlt hi)
    · exact Or.inl (hle.trans (ha.log.trans ha.disk))

theorem serve_appendEntries (clock : Clock) (r : AppendEntriesRequest) (n : RaftNode) :
    serve clock (.appendEntries r) n =
      (RaftNode.handleAppendEntries clock r n).andThen fun a => pure (.appendEntries a) :=
  NodeM.bind_run _ (fun a => pure (Response.appendEntries a)) n

theorem serve_result (clock : Clock) (r : AppendEntriesRequest) (n : RaftNode) :
    (serve clock (.appendEntries r) n).result =
      (RaftNode.handleAppendEntries clock r n).result.map .appendEntries := by
  rw [serve_appendEntries]
  rcases RaftNode.handleAppendEntries clock r n with ⟨_ | a, n', es⟩ <;> rfl

theorem serve_writes (clock : Clock) (r : AppendEntriesRequest) (n : RaftNode) :
    (serve clock (.appendEntries r) n).writes =
      (RaftNode.handleAppendEntries clock r n).writes := by
  rw [serve_appendEntries]
  rcases RaftNode.handleAppendEntries clock r n with ⟨_ | a, n', es⟩
  · rfl
  · exact congrArg (List.map _) (List.append_nil es)

namespace Session

variable {s s' : Session}

theorem Started.anchored (h : s.Started) : Anchored s.node s.disk := by
  obtain ⟨v, m, d, clock, n, ws, hinit, rfl⟩ := h
  exact init_anchored hinit

/-- The records that are appended before an append raises leave the snapshot file alone. -/
theorem appends_keepSnapshot {ws : List Write} (h : ws.all Write.isAppend = true) :
    ∀ w ∈ ws, w.KeepsSnapshot := by
  intro w hw
  have happend := List.all_eq_true.mp h w hw
  cases w with
  | appendLog r => exact fun _ => rfl
  | _ => cases happend

theorem step_anchored {event : Event} (hstep : s.step event = some s')
    (ha : Anchored s.node s.disk) : Anchored s'.node s'.disk := by
  cases event with
  | answer clock request =>
    simp only [step] at hstep
    split at hstep
    · cases hstep
      exact (serve_anchored clock request s.node s.disk ha).final
    · cases hstep
  | raise clock request effect done =>
    simp only [step] at hstep
    split at hstep
    · cases hstep
    rename_i e he
    split at hstep
    · rename_i hcond
      cases hstep
      obtain ⟨-, hle, happends⟩ := hcond
      have hstop := (serve_anchored clock request s.node s.disk ha).stopped effect e he
      refine ⟨hstop.log, ?_⟩
      have hsplit := List.take_append_drop effect
        ((serve clock request s.node).writes.take done)
      rw [List.take_take, min_eq_left hle] at hsplit
      rw [← hsplit, DataDir.writes_append, writes_keepSnapshot (appends_keepSnapshot happends)]
      exact hstop.disk
    · cases hstep

/-- The last call of a run, if the node was in step with its files. -/
theorem step_durable {event : Event} (hin : s.ServesInStep event)
    (hstep : s.step event = some s') (ha : Anchored s.node s.disk) : s'.AnswerDurable := by
  intro before r hans
  cases event with
  | answer clock request =>
    simp only [step] at hstep
    split at hstep
    · rename_i hwf
      cases hstep
      cases request with
      | appendEntries r' =>
        obtain ⟨a, hres, hsuccess, rfl, rfl⟩ : ∃ a,
            (RaftNode.handleAppendEntries clock r' s.node).result = .ok a ∧ a.success = true ∧
              s.node.log = before ∧ r' = r := by
          simp only [after, serve_result] at hans
          rcases hrun : (RaftNode.handleAppendEntries clock r' s.node).result with e | a
          · rw [hrun] at hans
            cases hans
          · rw [hrun] at hans
            simp only [Except.map] at hans
            split at hans
            · rename_i hsuccess
              cases hans
              exact ⟨a, rfl, hsuccess, rfl, rfl⟩
            · cases hans
        have hdurable := handleAppendEntries_durable (s.after clock (.appendEntries r')).node.nodeId
          ha (hin (passes_of_success hres hsuccess)) hwf hres hsuccess
        rwa [← serve_writes] at hdurable
      | requestVote r' => cases hans
      | installSnapshot r' => cases hans
      | timeoutNow r' => cases hans
    · cases hstep
  | raise clock request effect done =>
    simp only [step] at hstep
    split at hstep
    · cases hstep
    split at hstep
    · cases hstep
      cases hans
    · cases hstep

end Session

/-- **A success answer is durable** in every run, with calls that raise at any of their writes, in
which an AppendEntries is answered only when the files hold the term and the log of the node. -/
theorem success_durable {s s' : Session} (hs : s.Started)
    (hrun : Relation.ReflTransGen Session.StepInStep s s') : s'.AnswerDurable := by
  have hinv : Anchored s'.node s'.disk ∧ s'.AnswerDurable := by
    induction hrun with
    | refl =>
      refine ⟨hs.anchored, ?_⟩
      obtain ⟨v, m, d, clock, n, ws, -, rfl⟩ := hs
      exact fun _ _ hans => nomatch hans
    | tail _ hstep ih =>
      obtain ⟨event, hin, hstep⟩ := hstep
      exact ⟨Session.step_anchored hstep ih.1, Session.step_durable hin hstep ih.1⟩
  exact hinv.2

/-! ## 6. A failed write and the next call -/

def Session.runs (s : Session) (events : List Event) : Option Session := events.foldlM step s

theorem Session.runs_cons {s s' : Session} {event : Event} {events : List Event} :
    s.runs (event :: events) = some s' ↔ ∃ s₁, s.step event = some s₁ ∧ s₁.runs events = some s' :=
  Option.bind_eq_some_iff

theorem Session.runs_steps : ∀ {events : List Event} {s s' : Session},
    s.runs events = some s' → Relation.ReflTransGen Session.Step s s'
  | [], s, s', h => by
    cases h
    exact .refl
  | event :: events, s, s', h => by
    obtain ⟨s'', hstep, hrest⟩ := Session.runs_cons.mp h
    exact .head ⟨event, hstep⟩ (runs_steps hrest)

/-- Member `b` of two, started on an empty data directory. -/
def freshFollower : Option Session :=
  match RaftNode.init "b" { ids := ["a", "b"] } {} ⟨0, 1500⟩ with
  | ⟨.ok n, ws⟩ => some { node := n, disk := DataDir.writes {} ws }
  | _ => none

/-- The leader of term 1 sends `b` an entry. -/
def firstAppend : AppendEntriesRequest :=
  ⟨1, "a", 0, 0, [⟨1, 1, ⟨.put, "x", some "1"⟩⟩], 0⟩

theorem freshFollower_started {s : Session} (h : freshFollower = some s) : s.Started := by
  unfold freshFollower at h
  split at h
  · rename_i n ws hinit
    cases h
    exact ⟨_, _, _, _, n, ws, hinit, rfl⟩
  · cases h

/-- **A failed append is not made up for.**  The call that asks for the first record raises; the
request comes again, is answered with success, and the files hold neither its term nor its entry. -/
theorem failed_write_lost : ∃ s s', Session.Started s ∧ Relation.ReflTransGen Session.Step s s' ∧
    s'.answered.map Prod.snd = some firstAppend ∧ s'.disk = {} ∧ ¬ s'.AnswerDurable := by
  have hrun : (freshFollower.bind fun s => s.runs [
      .raise ⟨10, 1500⟩ (.appendEntries firstAppend) 0 0,
      .answer ⟨20, 1500⟩ (.appendEntries firstAppend)]).map
        (fun s => (s.answered.map Prod.snd, s.disk)) = some (some firstAppend, {}) := by
    rfl
  obtain ⟨s', hs', hend⟩ := Option.map_eq_some_iff.mp hrun
  obtain ⟨s, hs, hruns⟩ := Option.bind_eq_some_iff.mp hs'
  obtain ⟨hans, hdisk⟩ := Prod.mk.inj hend
  refine ⟨s, s', freshFollower_started hs, Session.runs_steps hruns, hans, hdisk,
    fun hdurable => ?_⟩
  obtain ⟨⟨before, r⟩, hr, rfl⟩ := Option.map_eq_some_iff.mp hans
  have hterm := (hdurable before firstAppend hr).term
  rw [hdisk, DataDir.loadState_eq] at hterm
  exact absurd hterm (by decide : ¬ (1 : Int) ≤ 0)

/-- The leader of term 2 sends `b` an entry. -/
def laterAppend : AppendEntriesRequest :=
  ⟨2, "a", 0, 0, [⟨1, 2, ⟨.put, "x", some "1"⟩⟩], 0⟩

/-- The vote of term 1 is not saved and the call raises, that of term 2 is saved. -/
def failedVote : List Event :=
  [.raise ⟨10, 1500⟩ (.requestVote ⟨1, "a", 0, 0⟩) 0 0,
    .answer ⟨20, 1500⟩ (.requestVote ⟨2, "a", 0, 0⟩)]

/-- Behind a call that raises: the files are in step again when the entry comes. -/
theorem success_durable_failedVote : ∃ s s', Session.Started s ∧
    s.runs (failedVote ++ [.answer ⟨30, 1500⟩ (.appendEntries laterAppend)]) = some s' ∧
    s'.answered.map Prod.snd = some laterAppend ∧ s'.AnswerDurable := by
  have hvotes : (freshFollower.bind fun s => s.runs failedVote).map
      (fun s => ((s.disk.loadState s.node.nodeId).currentTerm, s.node.state.currentTerm,
        s.disk.loadLog, s.node.log)) = some (2, 2, .ok {}, {}) := by
    rfl
  have hrun : (freshFollower.bind fun s =>
      s.runs (failedVote ++ [.answer ⟨30, 1500⟩ (.appendEntries laterAppend)])).map
        (fun s => s.answered.map Prod.snd) = some (some laterAppend) := by
    rfl
  obtain ⟨s', hs', hans⟩ := Option.map_eq_some_iff.mp hrun
  obtain ⟨s, hs, hruns⟩ := Option.bind_eq_some_iff.mp hs'
  obtain ⟨s₁, hraise, hruns₁⟩ := Session.runs_cons.mp hruns
  obtain ⟨s₂, hvote, hruns₂⟩ := Session.runs_cons.mp hruns₁
  obtain ⟨s₃, happend, hend⟩ := Session.runs_cons.mp hruns₂
  cases hend
  -- where the entry comes
  have hin : InStep s₂.node s₂.disk := by
    have hs₂ : s.runs failedVote = some s₂ :=
      Session.runs_cons.mpr ⟨s₁, hraise, Session.runs_cons.mpr ⟨s₂, hvote, rfl⟩⟩
    rw [hs, Option.bind_some, hs₂] at hvotes
    obtain ⟨hdisk, hend⟩ := Prod.mk.inj (Option.some.inj hvotes)
    obtain ⟨hterm, hend⟩ := Prod.mk.inj hend
    obtain ⟨hload, hlog⟩ := Prod.mk.inj hend
    exact ⟨hdisk.trans hterm.symm, hload.trans (congrArg _ hlog.symm)⟩
  have hsteps : Relation.ReflTransGen Session.StepInStep s s' :=
    .head ⟨_, by trivial, hraise⟩
      (.head ⟨_, by trivial, hvote⟩ (.single ⟨_, by exact fun _ => hin, happend⟩))
  exact ⟨s, s', freshFollower_started hs, hruns, hans,
    success_durable (freshFollower_started hs) hsteps⟩

end PyRaftKv
