/-
# Calls and workers in progress

What a call or a worker has reached changes only in the stretches of its own process.  `Shifts`
says once how: which calls a turn begins, how a call goes on (`Call.Next`), how a barrier counts its
followers (`Barrier.Next`) and how a worker goes on (`WorkerState.Next`).  Whatever holds of the
calls and the workers of every reachable state is derived from these, and from nothing else about
the stretches.
-/
import PyRaftKv.Refinement.Runs

open Consensus

namespace PyRaftKv

/-! ## 1. What a call carries -/

/-- The entries a write waits for. -/
def Call.entries : Call → List LogEntry
  | .replicateLog es => es
  | .replicateRound es _ => es
  | .submitResults es => es
  | _ => []

/-- The writes that are about to be acknowledged. -/
def Call.written : Call → List Acknowledgement
  | .sendHeartbeats ws => ws
  | .heartbeatRound ws _ => ws
  | _ => []

/-- The writes acknowledged before a read was called. -/
def Call.acked : Call → List Acknowledgement
  | .confirmRead _ as => as
  | .confirming _ as _ => as
  | .finishRead _ as _ => as
  | _ => []

def Call.reading : Call → Bool
  | .confirmRead _ _ => true
  | .confirming _ _ _ => true
  | .finishRead _ _ _ => true
  | _ => false

/-- The followers it may put workers to. -/
def Call.followers : Call → List NodeId
  | .replicateRound _ (some r) => r.followers
  | .heartbeatRound _ (some r) => r.followers
  | .transferRound _ _ (some r) => r.followers
  | .confirming _ _ b => b.followers
  | _ => []

theorem Call.acked_of_not_reading {call : Call} (h : call.reading = false) : call.acked = [] := by
  cases call <;> first | rfl | cases h

/-- The writes that `submit_commands` answers `True` for. -/
def writtenOf (n : RaftNode) (entries : List LogEntry) (results : List Bool) :
    List Acknowledgement :=
  ((entries.zip results).filter (·.2)).map fun r => ⟨n.nodeId, n.state.currentTerm, r.1⟩

/-! ## 2. How calls and workers go on -/

/-- The calls a stretch begins. -/
inductive Call.Begun (c : Cluster) (n : RaftNode) : Op → Call → Prop
  | submitCommands {commands : List RaftCommand} {es : List LogEntry}
      (hrun : (RaftNode.submitStart commands n).result = .ok es) :
      Begun c n (.submitCommands commands) (.replicateLog es)
  | replicateLog : Begun c n .replicateLog (.replicateLog [])
  | sendHeartbeats : Begun c n .sendHeartbeats (.sendHeartbeats [])
  | linearizableGet (key : String) :
      Begun c n (.linearizableGet key) (.confirmRead key c.acknowledged)
  | transferLeadership (targetId : Option NodeId) :
      Begun c n (.transferLeadership targetId) (.transferLeadership targetId)

/-- How a barrier goes on with one follower; `p'` is the process afterwards. -/
inductive Barrier.Next (p p' : Process) (b : Barrier) (f : NodeId) : Barrier → Prop
  | fresh (hnew : p'.futures f = some ⟨p.nextId, .queued⟩) :
      Next p p' b f { b with fresh := Function.update b.fresh f (some p.nextId) }
  | confirmed {task : Nat} (hf : f ∈ b.followers) (hnot : f ∉ b.confirmed)
      (hfresh : b.fresh f = some task) (hdone : p.futures f = some ⟨task, .finished (.ok true)⟩) :
      Next p p' b f { b with confirmed := f :: b.confirmed }
  | failed : Next p p' b f { b with failed := f :: b.failed }

/-- How a call of `p` goes on in the turn to `p'`. -/
inductive Call.Next (c : Cluster) (p p' : Process) : Op → Call → Call → Prop
  | shift {op : Op} {call call' : Call} (hentries : call'.entries = call.entries)
      (hwritten : call'.written = call.written) (hreading : call'.reading = false)
      (hfollowers : ∀ f ∈ call'.followers, f ∈ call.followers ∨
        ∃ fs, (RaftNode.roundStart p.node).result = .ok fs ∧ f ∈ fs) :
      Next c p p' op call call'
  | answer {i : Nat} {es : List LogEntry} {results : List Bool}
      (hrun : (RaftNode.submitResults es p.node).result = .ok results) :
      Next c p p' (.submitResults i) (.submitResults es)
        (.sendHeartbeats (writtenOf p.node es results))
  | barrier {i : Nat} {key : String} {acked : List Acknowledgement} {readTerm : Int}
      {followers : List NodeId}
      (hrun : (RaftNode.confirmStart p.node).result = .ok (readTerm, followers)) :
      Next c p p' (.confirmStart i) (.confirmRead key acked) (.confirming key acked
        { readTerm, followers, startedAt := c.now, firstRpc := c.rpcs.length })
  | poll {i : Nat} {f : NodeId} {key : String} {acked : List Acknowledgement} {b b' : Barrier}
      (hb : Barrier.Next p p' b f b') :
      Next c p p' (.confirmPoll i f) (.confirming key acked b) (.confirming key acked b')
  | confirm {i : Nat} {key : String} {acked : List Acknowledgement} {b : Barrier}
      (hrun : (RaftNode.confirmFinish b.readTerm b.confirmed c.now p.node).result = .ok ()) :
      Next c p p' (.confirmFinish i) (.confirming key acked b)
        (.finishRead key acked b.readTerm)

/-- How a worker for follower `f` goes on. -/
inductive WorkerState.Next (c : Cluster) (n : RaftNode) (f : NodeId) :
    WorkerState → WorkerState → Prop
  | build (request : ReplicationRequest) :
      Next c n f .queued (.waiting c.rpcs.length request)
  | again {rpc : Nat} {request : ReplicationRequest} : Next c n f (.waiting rpc request) .queued
  | succeed {rpc : Nat} {request : ReplicationRequest} {response : Response} {term : Int}
      (hmem : ⟨rpc, response⟩ ∈ c.answers)
      (hread : Process.replicationAnswer response = some (term, true))
      (hterm : request.term = n.state.currentTerm) :
      Next c n f (.waiting rpc request) (.finished (.ok true))
  | stop {state : WorkerState} : Next c n f state (.finished (.ok false))
  | buildRaise {e : RaftError} (hrun : (RaftNode.replicateBuild f n).result = .error e) :
      Next c n f .queued (.finished (.error e))
  | answerRaise {rpc : Nat} {request : ReplicationRequest} {term : Int} {success : Bool}
      {e : RaftError}
      (hrun : (RaftNode.replicateResponse f request term success n).result = .error e) :
      Next c n f (.waiting rpc request) (.finished (.error e))

/-! ## 3. Turns -/

section Shifts

variable (c : Cluster) (p : Process) (op : Op) (p' : Process)

def CallsShift (calls : Nat → Option Call) : Prop :=
  ∀ i call, calls i = some call → p.calls i = some call ∨ Call.Begun c p.node op call ∨
    ∃ old, p.calls i = some old ∧ Call.Next c p p' op old call

def FuturesShift (futures : NodeId → Option Future) : Prop :=
  ∀ f future, futures f = some future → p.futures f = some future ∨
    (future.state = .queued ∧ ∃ i call, p.calls i = some call ∧ f ∈ call.followers) ∨
    ∃ state, p.futures f = some ⟨future.id, state⟩ ∧ state.Next c p.node f future.state

/-- **What a turn does to the calls and the workers of its process.** -/
structure Shifts (t : Turn) : Prop where
  calls : CallsShift c p op t.process t.process.calls
  futures : FuturesShift c p t.process.futures
  acknowledged : ∀ a ∈ t.acknowledged, ∃ i call, p.calls i = some call ∧ a ∈ call.written

variable {c p op p'} {i : Nat} {f : NodeId}

theorem CallsShift.refl : CallsShift c p op p' p.calls := fun _ _ hcall => Or.inl hcall

theorem CallsShift.update {call : Option Call} (hcall : ∀ call', call = some call' →
    p.calls i = some call' ∨ Call.Begun c p.node op call' ∨
      ∃ old, p.calls i = some old ∧ Call.Next c p p' op old call') :
    CallsShift c p op p' (Function.update p.calls i call) := by
  intro j call' hj
  by_cases h : j = i
  · subst h
    rw [Function.update_self] at hj
    exact hcall call' hj
  · rw [Function.update_of_ne h] at hj
    exact Or.inl hj

theorem CallsShift.next {old call : Call} (hold : p.calls i = some old)
    (hnext : Call.Next c p p' op old call) :
    CallsShift c p op p' (Function.update p.calls i (some call)) := by
  refine .update fun call' hcall => ?_
  cases hcall
  exact Or.inr (Or.inr ⟨old, hold, hnext⟩)

theorem CallsShift.begun {call : Call} (hbegun : Call.Begun c p.node op call) :
    CallsShift c p op p' (Function.update p.calls i (some call)) := by
  refine .update fun call' hcall => ?_
  cases hcall
  exact Or.inr (Or.inl hbegun)

theorem CallsShift.drop : CallsShift c p op p' (Function.update p.calls i none) :=
  .update fun _ hcall => nomatch hcall

theorem FuturesShift.refl : FuturesShift c p p.futures := fun _ _ hf => Or.inl hf

theorem FuturesShift.update {future : Option Future} (hfuture : ∀ future', future = some future' →
    (future'.state = .queued ∧ ∃ i call, p.calls i = some call ∧ f ∈ call.followers) ∨
      ∃ state, p.futures f = some ⟨future'.id, state⟩ ∧ state.Next c p.node f future'.state) :
    FuturesShift c p (Function.update p.futures f future) := by
  intro g future' hg
  by_cases h : g = f
  · subst h
    rw [Function.update_self] at hg
    exact Or.inr (hfuture future' hg)
  · rw [Function.update_of_ne h] at hg
    exact Or.inl hg

theorem FuturesShift.next {id : Nat} {state state' : WorkerState}
    (hold : p.futures f = some ⟨id, state⟩) (hnext : state.Next c p.node f state') :
    FuturesShift c p (Function.update p.futures f (some ⟨id, state'⟩)) := by
  refine .update fun future' hfuture => ?_
  cases hfuture
  exact Or.inr ⟨state, hold, hnext⟩

theorem FuturesShift.fresh {id : Nat} {call : Call} (hcall : p.calls i = some call)
    (hf : f ∈ call.followers) :
    FuturesShift c p (Function.update p.futures f (some ⟨id, .queued⟩)) := by
  refine .update fun future' hfuture => ?_
  cases hfuture
  exact Or.inl ⟨rfl, i, call, hcall, hf⟩

theorem FuturesShift.drop : FuturesShift c p (Function.update p.futures f none) :=
  .update fun _ hfuture => nomatch hfuture

end Shifts

section Turns

variable {c : Cluster} {v : NodeId} {p : Process} {op : Op} {t : Turn} {i : Nat} {f : NodeId}

/-- A turn without a call or a worker. -/
theorem Shifts.plain (hc : t.process.calls = p.calls) (hf : t.process.futures = p.futures)
    (ha : t.acknowledged = []) : Shifts c p op t :=
  ⟨hc ▸ .refl, hf ▸ .refl, by simp [ha]⟩

theorem lockReplication_shifts (ht : p.lockReplication i = some t) :
    Shifts c p (.lockReplication i) t := by
  unfold Process.lockReplication at ht
  split at ht
  · cases ht
  simp only at ht
  split at ht
  · rename_i hcall
    split at ht <;> cases ht
    · exact ⟨.drop, .refl, by simp⟩
    · exact ⟨.next hcall (.shift rfl rfl rfl (fun _ hf => nomatch hf)), .refl, by simp⟩
  · rename_i hcall
    cases ht
    exact ⟨.next hcall (.shift rfl rfl rfl (fun _ hf => nomatch hf)), .refl, by simp⟩
  · rename_i hcall
    split at ht <;> cases ht
    · exact ⟨.next hcall (.shift rfl rfl rfl (fun _ hf => nomatch hf)), .refl, by simp⟩
    · exact ⟨.drop, .refl, by simp⟩
  · cases ht

theorem Process.roundOf_followers {call : Call} {round : Round} {next : Option Round → Call}
    (hround : Process.roundOf call = some (some round, next)) :
    call.followers = round.followers ∧
      ∀ round' : Round, (next (some round')).followers = round'.followers := by
  cases call <;> cases hround <;> exact ⟨rfl, fun _ => rfl⟩

/-- A call that goes on in another round. -/
theorem Call.Next.round {p' : Process} {call : Call} {round : Option Round}
    {next : Option Round → Call} (hround : Process.roundOf call = some (round, next))
    (round' : Round) (hfollowers : ∀ f ∈ round'.followers, f ∈ call.followers ∨
      ∃ fs, (RaftNode.roundStart p.node).result = .ok fs ∧ f ∈ fs) :
    Call.Next c p p' op call (next (some round')) := by
  cases call <;> cases hround <;> exact .shift rfl rfl rfl hfollowers

/-- A round that has come further with the same followers. -/
theorem Call.Next.sameRound {p' : Process} {call : Call} {round round' : Round}
    {next : Option Round → Call} (hround : Process.roundOf call = some (some round, next))
    (hsame : round'.followers = round.followers) :
    Call.Next c p p' op call (next (some round')) :=
  .round hround round' fun _ hf =>
    Or.inl ((Process.roundOf_followers hround).1 ▸ hsame ▸ hf)

/-- A call that raises inside a round. -/
theorem abort_shifts (p' : Process) (hc : p'.calls = p.calls) (hf : p'.futures = p.futures)
    (writes : List Write) : Shifts c p op { process := p'.abort i, writes } := by
  refine ⟨?_, ?_, by simp⟩
  · simp only [Process.calls_abort, hc]
    exact .drop
  · simp only [Process.futures_abort, hf]
    exact .refl

theorem beginRound_shifts (ht : p.beginRound i = some t) : Shifts c p (.beginRound i) t := by
  unfold Process.beginRound at ht
  split at ht
  · rename_i next hround
    obtain ⟨call, hcall, hround⟩ := Option.bind_eq_some_iff.mp hround
    simp only at ht
    split at ht
    · cases ht
      exact abort_shifts (p := p) (p.after (RaftNode.roundStart p.node)) rfl rfl _
    · rename_i followers hrun
      cases ht
      exact ⟨.next hcall (.round hround _ fun f hf => Or.inr ⟨followers, hrun, hf⟩), .refl, by simp⟩
  · cases ht

theorem submitTask_shifts (ht : p.submitTask i f = some t) : Shifts c p (.submitTask i f) t := by
  unfold Process.submitTask at ht
  split at ht
  · rename_i round next hround
    obtain ⟨call, hcall, hround⟩ := Option.bind_eq_some_iff.mp hround
    split at ht
    · cases ht
    rename_i hnot
    have hf : f ∈ call.followers := by
      rw [(Process.roundOf_followers hround).1]
      exact not_not.mp (not_or.mp hnot).1
    split at ht <;> cases ht
    · exact abort_shifts p rfl rfl _
    · exact ⟨.next hcall (.sameRound hround rfl), .fresh hcall hf, by simp⟩
    · exact ⟨.next hcall (.sameRound hround rfl), .refl, by simp⟩
    · exact ⟨.next hcall (.sameRound hround rfl), .fresh hcall hf, by simp⟩
  · cases ht

theorem collectTask_shifts (ht : p.collectTask i f = some t) : Shifts c p (.collectTask i f) t := by
  unfold Process.collectTask at ht
  split at ht
  · rename_i round next task result hround hfuture
    obtain ⟨call, hcall, hround⟩ := Option.bind_eq_some_iff.mp hround
    split at ht
    · cases ht
    split at ht <;> cases ht
    · exact abort_shifts p rfl rfl _
    · exact ⟨.next hcall (.sameRound hround rfl), .drop, by simp⟩
  · cases ht

theorem finishRound_shifts (ht : p.turn c v (.finishRound i) = some t) :
    Shifts c p (.finishRound i) t := by
  simp only [Process.turn, Process.finishRound] at ht
  split at ht
  · rename_i entries round hcall
    split at ht
    · cases ht
      exact ⟨.drop, .refl, by simp⟩
    · split at ht <;> cases ht
      · exact ⟨.drop, .refl, by simp⟩
      · exact ⟨.next hcall (.shift rfl rfl rfl (fun _ hf => by cases hf)), .refl, by simp⟩
  · rename_i written round hcall
    cases ht
    exact ⟨.drop, .refl, fun a ha => ⟨i, _, hcall, ha⟩⟩
  · rename_i targetId term round hcall
    split at ht <;> cases ht
    · exact ⟨.next hcall (.shift rfl rfl rfl (fun _ hf => by cases hf)), .refl, by simp⟩
    · exact ⟨.drop, .refl, by simp⟩
  · cases ht

theorem submitResults_shifts (ht : p.submitResults i = some t) :
    Shifts c p (.submitResults i) t := by
  unfold Process.submitResults at ht
  split at ht
  · rename_i entries hcall
    simp only at ht
    split at ht
    · cases ht
      exact ⟨.drop, .refl, by simp⟩
    · rename_i results hrun
      cases ht
      refine ⟨?_, ?_, by simp⟩
      · split
        · exact .drop
        · exact .next hcall (.answer hrun)
      · split <;> exact .refl
  · cases ht

theorem confirmStart_shifts (ht : p.confirmStart i c.now c.rpcs.length = some t) :
    Shifts c p (.confirmStart i) t := by
  unfold Process.confirmStart at ht
  split at ht
  · rename_i key acked hcall
    split at ht
    · cases ht
    simp only at ht
    split at ht
    · cases ht
      exact ⟨.drop, .refl, by simp⟩
    · rename_i readTerm followers hrun
      cases ht
      exact ⟨.next hcall (.barrier hrun), .refl, by simp⟩
  · cases ht

/-- A barrier that puts a new worker to a follower. -/
theorem Shifts.fresh {key : String} {acked : List Acknowledgement} {b : Barrier}
    (hcall : p.calls i = some (.confirming key acked b)) (hf : f ∈ b.followers) :
    Shifts c p (.confirmPoll i f) { process := (p.submitWorker f).2.setCall i (some (.confirming key
      acked { b with fresh := Function.update b.fresh f (some p.nextId) })) } :=
  ⟨.next hcall (.poll (.fresh (Function.update_self _ _ _))), .fresh hcall hf, by simp⟩

theorem confirmPoll_shifts (ht : p.confirmPoll i f = some t) : Shifts c p (.confirmPoll i f) t := by
  unfold Process.confirmPoll at ht
  split at ht
  · rename_i key acked b hcall
    split at ht
    · cases ht
    rename_i hnot
    rw [not_or, not_or, not_not] at hnot
    split at ht
    · cases ht
      exact ⟨.drop, .refl, by simp⟩
    · rename_i task result hfuture
      split at ht
      · rename_i hfresh
        cases ht
        refine ⟨.next hcall (.poll (f := f) ?_), .drop, by simp⟩
        cases result
        · exact .failed
        · exact .confirmed hnot.1 hnot.2.1 hfresh hfuture
      · cases ht
        exact .fresh hcall hnot.1
    · cases ht
      exact .plain rfl rfl rfl
    · cases ht
      exact .fresh hcall hnot.1
  · cases ht

theorem confirmFinish_shifts (ht : p.confirmFinish i c.now = some t) :
    Shifts c p (.confirmFinish i) t := by
  unfold Process.confirmFinish at ht
  split at ht
  · rename_i key acked b hcall
    simp only at ht
    split at ht
    · cases ht
      exact ⟨.drop, .refl, by simp⟩
    · rename_i hrun
      cases ht
      exact ⟨.next hcall (.confirm hrun), .refl, by simp⟩
  · cases ht

/-- What `_replicate_to_follower` returns `True` after. -/
theorem replicateResponse_true {request : ReplicationRequest} {term : Int} {success : Bool}
    {n : RaftNode} (hrun : (RaftNode.replicateResponse f request term success n).result =
      .ok (some true)) : success = true ∧ request.term = n.state.currentTerm := by
  simp only [RaftNode.replicateResponse, NodeM.bind_run, NodeM.get_run, NodeM.andThen_ok,
    NodeM.behind_nil] at hrun
  rcases hr : n.replication with _ | r
  · simp [hr] at hrun
  simp only [hr, NodeM.ite_run] at hrun
  split at hrun
  · simp at hrun
  rename_i hlead
  rw [not_or, not_not, not_not] at hlead
  refine ⟨?_, hlead.2.symm⟩
  split at hrun
  · -- a newer term: whatever comes of following it, the method does not return `True`
    rcases hb : n.state.becomeFollower term none with e | s <;>
      simp [RaftNode.becomeFollower, RaftNode.persistState, NodeM.bind_run, hb] at hrun
  cases success with
  | true => rfl
  | false =>
    rcases request with q | q
    · rcases hf : r.recordFailure f with e | r' <;> simp [NodeM.bind_run, hf] at hrun
    · simp at hrun

theorem workerBuild_shifts (ht : p.workerBuild f c.rpcs.length = some t) :
    Shifts c p (.workerBuild f) t := by
  unfold Process.workerBuild at ht
  split at ht
  · rename_i id hfuture
    simp only at ht
    split at ht
    · rename_i e hrun
      cases ht
      exact ⟨.refl, .next hfuture (.buildRaise hrun), by simp⟩
    · cases ht
      exact ⟨.refl, .next hfuture .stop, by simp⟩
    · cases ht
      exact ⟨.refl, .next hfuture (.build _), by simp⟩
  · cases ht

theorem workerAnswer_shifts {answer : Answer} (hans : answer ∈ c.answers)
    (ht : p.workerAnswer f answer = some t) (j : Nat) : Shifts c p (.workerAnswer f j) t := by
  unfold Process.workerAnswer at ht
  split at ht
  · rename_i id rpc request term success hfuture hread
    split at ht
    · cases ht
    rename_i hrpc
    obtain rfl : answer.rpc = rpc := not_not.mp hrpc
    cases ht
    refine ⟨.refl, .next hfuture ?_, by simp⟩
    rcases hres : (RaftNode.replicateResponse f request term success p.node).result with
      e | _ | result
    · exact .answerRaise hres
    · exact .again
    · cases result with
      | false => exact .stop
      | true =>
        obtain ⟨rfl, hterm⟩ := replicateResponse_true hres
        exact .succeed hans hread hterm
  · cases ht

/-- **Every turn moves its calls and workers in these ways.** -/
theorem turn_shifts (ht : p.turn c v op = some t) : Shifts c p op t := by
  rcases op with timeout | j | ⟨j, timeout⟩ | _ | f | ⟨f, j⟩ | f | commands | _ | _ | i | i |
    ⟨i, f⟩ | ⟨i, f⟩ | i | i | key | i | ⟨i, f⟩ | i | i | targetId | ⟨i, j⟩ | i
  · simp only [Process.turn] at ht
    split at ht <;> cases ht
    exact .plain rfl rfl rfl
  · simp only [Process.turn] at ht
    split at ht
    · split at ht
      · split at ht <;> cases ht
        exact .plain rfl rfl rfl
      · cases ht
    · cases ht
  · simp only [Process.turn] at ht
    split at ht
    · rename_i rpc _
      split at ht <;> cases ht
      rcases rpc with ⟨source, target, r | r | r | r⟩ <;> exact .plain rfl rfl rfl
    · cases ht
  · cases ht
    exact .plain rfl rfl rfl
  · exact workerBuild_shifts ht
  · obtain ⟨answer, hans, ht⟩ := Option.bind_eq_some_iff.mp ht
    exact workerAnswer_shifts (List.mem_of_getElem? hans) ht j
  · simp only [Process.turn, Process.workerFail] at ht
    split at ht <;> cases ht
    rename_i hfuture
    exact ⟨.refl, .next hfuture .stop, by simp⟩
  · simp only [Process.turn] at ht
    split at ht <;> cases ht
    · rename_i hrun
      exact ⟨.begun (.submitCommands hrun), .refl, by simp⟩
    · exact .plain rfl rfl rfl
  · cases ht
    exact ⟨.begun .replicateLog, .refl, by simp⟩
  · cases ht
    exact ⟨.begun .sendHeartbeats, .refl, by simp⟩
  · exact lockReplication_shifts ht
  · exact beginRound_shifts ht
  · exact submitTask_shifts ht
  · exact collectTask_shifts ht
  · exact finishRound_shifts ht
  · exact submitResults_shifts ht
  · simp only [Process.turn] at ht
    split at ht <;> cases ht
    · exact ⟨.begun (.linearizableGet key), .refl, by simp⟩
    · exact .plain rfl rfl rfl
  · exact confirmStart_shifts ht
  · exact confirmPoll_shifts ht
  · exact confirmFinish_shifts ht
  · simp only [Process.turn] at ht
    split at ht <;> cases ht
    exact ⟨.drop, .refl, by simp⟩
  · cases ht
    exact ⟨.begun (.transferLeadership targetId), .refl, by simp⟩
  · obtain ⟨answer, -, ht⟩ := Option.bind_eq_some_iff.mp ht
    unfold Process.transferAnswer at ht
    split at ht
    · split at ht <;> cases ht
      exact ⟨.drop, .refl, fun _ ha => by cases ha⟩
    · cases ht
  · simp only [Process.turn] at ht
    split at ht <;> cases ht
    exact ⟨.drop, .refl, fun _ ha => by cases ha⟩

end Turns

/-! ## 4. The processes of a run -/

/-- **Where a process comes from in a step**: it was there, it has just started, or this is its
turn. -/
theorem Moved.process {c c' : Cluster} {g g' : Grp} {a : Action} (hmv : Moved c g a c' g')
    {u : NodeId} {q : Process} (hq : c'.process u = some q) :
    c.process u = some q ∨ (∃ n : RaftNode, q = { node := n } ∧ n.lastReadQuorumTime = none) ∨
      ∃ p op t, a = .run u op ∧ c.process u = some p ∧ p.turn c u op = some t ∧
        c' = c.finish u op t ∧ q = t.process := by
  cases hmv with
  | elapse ms => exact Or.inl hq
  | @start v _ n ws _ _ _ hread =>
    have hq : Function.update c.process v (some ({ node := n } : Process)) u = some q := hq
    by_cases hu : u = v
    · subst hu
      rw [Function.update_self] at hq
      cases hq
      exact Or.inr (Or.inl ⟨n, rfl, hread⟩)
    · rw [Function.update_of_ne hu] at hq
      exact Or.inl hq
  | @run v op p t _ _ hp ht _ =>
    by_cases hu : u = v
    · subst hu
      rw [Cluster.finish_process_self] at hq
      cases hq
      exact Or.inr (Or.inr ⟨p, op, t, rfl, hp, ht, rfl, rfl⟩)
    · rw [Cluster.finish_process_of_ne _ _ _ hu] at hq
      exact Or.inl hq
  | @fall _ v ws =>
    have hq : (c.down v ws).process u = some q := hq
    by_cases hu : u = v
    · subst hu
      rw [Cluster.down_process_self] at hq
      cases hq
    · rw [Cluster.down_process_of_ne _ _ hu] at hq
      exact Or.inl hq

/-- Every call of a running member has the property. -/
def Cluster.AllCalls (c : Cluster) (P : NodeId → Process → Call → Prop) : Prop :=
  ∀ u p i call, c.process u = some p → p.calls i = some call → P u p call

/-- **What is kept where nothing happens, holds where a call begins and is kept where one goes on**,
holds of the calls of the next state. -/
theorem Moved.allCalls {c c' : Cluster} {g g' : Grp} {a : Action} (hmv : Moved c g a c' g')
    {P P' : NodeId → Process → Call → Prop} (hall : c.AllCalls P)
    (hsame : ∀ u p call, c.process u = some p → P u p call → P' u p call)
    (hturn : ∀ u p op t, c.process u = some p → p.turn c u op = some t → c' = c.finish u op t →
      Shifts c p op t → ∀ call, (P u p call → P' u t.process call) ∧
        (Call.Begun c p.node op call → P' u t.process call) ∧
        ∀ old, P u p old → Call.Next c p t.process op old call → P' u t.process call) :
    c'.AllCalls P' := by
  intro u q i call hq hcall
  rcases hmv.process hq with hp | ⟨n, rfl, -⟩ | ⟨p, op, t, -, hp, ht, hc', rfl⟩
  · exact hsame u q call hp (hall u q i call hp hcall)
  · cases hcall
  · have hsh := turn_shifts ht
    obtain ⟨hold, hbegun, hnext⟩ := hturn u p op t hp ht hc' hsh call
    rcases hsh.calls i call hcall with h | h | ⟨old, h, hmove⟩
    · exact hold (hall u p i call hp h)
    · exact hbegun h
    · exact hnext old (hall u p i old hp h) hmove

end PyRaftKv
