/-
# What a rejected write leaves behind

`submit_commands` rejects its commands with `NotLeaderError`, `LeadershipTransferInProgressError` or
`ValueError`.  It has two places to do so: its own checks, before it has appended anything, and the
check at the start of `replicate_log`, which it calls after it has appended its entries and let go
of the lock (`Refines.submit_raises`).

* `rejected_without_trace` -- a write rejected while the node leads, or by the first checks, has no
  effect; and from the second place on it is not rejected as long as the node leads.
* `rejected_with_trace` -- a node that stops leading in between rejects a write it has appended.
-/
import PyRaftKv.Guarantees.Nodes
import PyRaftKv.Guarantees.Writes

open Consensus

namespace PyRaftKv

open Cluster

/-! ## 1. The stretches of a write -/

/-- The call of `submit_commands` that the stretch is a part of, if it has appended its entries. -/
def Op.writeCall (p : Process) : Op → Option Call
  | .lockReplication i => p.calls i
  | .beginRound i => p.calls i
  | .submitTask i _ => p.calls i
  | .collectTask i _ => p.calls i
  | .finishRound i => p.calls i
  | .submitResults i => p.calls i
  | _ => none

/-- A call of `submit_commands` raises the error `e` in the stretch `op`, with the entries `es` that
it has appended. -/
inductive SubmitRaises (c : Cluster) (v : NodeId) (p : Process) : Op → RaftError →
    List LogEntry → Prop
  | start {commands : List RaftCommand} {e : RaftError}
      (h : Raises c v p (.submitCommands commands) e) :
      SubmitRaises c v p (.submitCommands commands) e []
  | later {op : Op} {e : RaftError} {call : Call} (hcall : op.writeCall p = some call)
      (hwrite : call.entries ≠ [] ∨ call.written ≠ []) (h : Raises c v p op e) :
      SubmitRaises c v p op e (call.entries ++ call.written.map (·.entry))

/-- The entries a request carries. -/
def Request.entries : Request → List LogEntry
  | .appendEntries r => r.entries
  | _ => []

/-- **The step of `v` from `c` to `c'` leaves no trace of a call** with the entries `es`: the node,
its files and the network are as they were, and no entry of the call is in the node's log, in a
request that was sent, or at any later time among those that are applied. -/
structure NoTrace (c c' : Cluster) (v : NodeId) (es : List LogEntry) : Prop where
  node : (c'.process v).map (·.node) = (c.process v).map (·.node)
  disk : c'.disk = c.disk
  rpcs : c'.rpcs = c.rpcs
  log : ∀ p, c'.process v = some p → ∀ e ∈ es, e ∉ p.node.log.entries
  sent : ∀ rpc ∈ c'.rpcs, ∀ e ∈ es, e ∉ rpc.request.entries
  applied : ∀ c'', Leads c' c'' → ∀ e ∈ es, e ∉ c''.committed

/-- The condition: a write that comes to `replicate_log` finds its node leading. -/
def StillLeads (p : Process) (op : Op) : Prop :=
  ∀ i es, op = .lockReplication i → p.calls i = some (.replicateLog es) → es ≠ [] →
    p.node.state.role = .leader

/-- **The two places a write is rejected in.** -/
theorem Refines.submit_raises {c : Cluster} {g : Grp} (hr : Refines c g) (hs : Staffed c)
    {v : NodeId} {p : Process} (hp : c.process v = some p) {op : Op} {e : RaftError}
    {es : List LogEntry} (hraise : SubmitRaises c v p op e es) :
    (∃ commands, op = .submitCommands commands ∧ es = [] ∧
      RaftNode.submitStart commands p.node = ⟨.error e, p.node, []⟩) ∨
    ∃ i, op = .lockReplication i ∧ p.calls i = some (.replicateLog es) ∧ es ≠ [] ∧
      p.node.state.role ≠ .leader := by
  cases hraise with
  | start h =>
    cases h with
    | submitCommands h => exact Or.inl ⟨_, rfl, rfl, (submitStart_error (hr.live hp) h).1⟩
  | later hcall hwrite h =>
    cases h with
    | @replicateLog i es _ hcall' h =>
      obtain rfl := Option.some.inj (hcall'.symm.trans hcall)
      refine Or.inr ⟨i, rfl, ?_, ?_, (replicateLogStart_error (hr.up v p hp) h).1⟩
      · simpa [Call.entries, Call.written] using hcall'
      · simpa [Call.entries, Call.written] using hwrite
    | transferStart hcall' h =>
      obtain rfl := Option.some.inj (hcall'.symm.trans hcall)
      rcases hwrite with h | h <;> exact absurd rfl h
    | beginRound hcall' h =>
      obtain ⟨fs, hrun, -⟩ := roundStart_ok (hr.up v p hp)
      rw [hrun] at h
      cases h
    | submitTask hcall' h => exact absurd rfl ((hs.futures v p _ _ hp h).2 e)
    | collectTask hcall' h => exact absurd rfl ((hs.futures v p _ _ hp h).2 e)
    | replicateLogFinish hcall' h =>
      rcases replicateLogFinish_lawful (hr.live hp) with hrun | ⟨n', s, h', k, R, hrun, -⟩ <;>
        rw [hrun] at h <;> cases h
    | transferSelect hcall' h => exact absurd h (transferSelect_ok _ _ _)
    | submitResults hcall' h =>
      obtain ⟨results, hrun⟩ := submitResults_idle (n := p.node) _
      rw [hrun] at h
      cases h
    | _ => cases hcall

/-! ## 2. Rejections without a trace -/

/-- **A write rejected while its node leads leaves no trace.**  Whatever `submit_commands` raises,
if the node still led when the call came to `replicate_log`, then nothing was appended, nothing
sent, and nothing of the call is ever applied. -/
theorem rejected_without_trace {m : Members} {c c' : Cluster} (hc : Reachable m c) {v : NodeId}
    {p : Process} {op : Op} {e : RaftError} {es : List LogEntry} (hp : c.process v = some p)
    (hstep : c.step (.run v op) = some c') (hraise : SubmitRaises c v p op e es)
    (hcond : StillLeads p op) : NoTrace c c' v es := by
  obtain ⟨g, hr, -, hs⟩ := hc.staffed
  rcases hr.submit_raises hs hp hraise with ⟨commands, rfl, rfl, hrun⟩ |
    ⟨i, rfl, hcall, hes, hlead⟩
  · have hturn : p.turn c v (.submitCommands commands) = some { process := p } := by
      simp only [Process.turn, hrun]
      rfl
    have hc' : c' = c.finish v (.submitCommands commands) { process := p } := by
      simp only [Cluster.step, hp, hturn, Option.map_some, Option.some.injEq] at hstep
      exact hstep.symm
    subst hc'
    refine ⟨?_, ?_, ?_, by simp, by simp, by simp⟩
    · rw [finish_process_self, hp]
    · exact Function.update_eq_self v c.disk
    · exact List.append_nil c.rpcs
  · exact absurd (hcond i es rfl hcall hes) hlead

/-- What `submit_commands` raises at once, if it does. -/
def startError (commands : List RaftCommand) (n : RaftNode) : Option RaftError :=
  match (RaftNode.submitStart commands n).result with
  | .error e => some e
  | .ok _ => none

theorem startError_raises {c : Cluster} {v : NodeId} {commands : List RaftCommand} {e : RaftError}
    (h : (c.process v).map (fun p => startError commands p.node) = some (some e)) :
    ∃ p, c.process v = some p ∧ SubmitRaises c v p (.submitCommands commands) e [] := by
  obtain ⟨p, hp, he⟩ := Option.map_eq_some_iff.mp h
  refine ⟨p, hp, .start (.submitCommands ?_)⟩
  unfold startError at he
  split at he <;> cases he
  assumption

/-- A follower is asked to write. -/
def writeToFollower : Action := .run "b" (.submitCommands [{ operation := .delete, key := "x" }])

theorem writeToFollower_steps : (afterFirstWrite.step writeToFollower).isSome = true := by
  decide +kernel

theorem rejected_without_trace_follower : ∃ p c', afterFirstWrite.process "b" = some p ∧
    SubmitRaises afterFirstWrite "b" p (.submitCommands [{ operation := .delete, key := "x" }])
      (.notLeaderError "Node b is not the leader") [] ∧ NoTrace afterFirstWrite c' "b" [] := by
  have herr : (afterFirstWrite.process "b").map
      (fun p => startError [{ operation := .delete, key := "x" }] p.node) =
        some (some (.notLeaderError "Node b is not the leader")) := by decide +kernel
  obtain ⟨p, hp, hraise⟩ := startError_raises herr
  exact ⟨p, _, hp, hraise, rejected_without_trace afterFirstWrite_reachable hp
    (Option.some_get writeToFollower_steps).symm hraise fun i es hop => nomatch hop⟩

/-! ## 3. A rejection with a trace -/

/-- A leader takes a write, and hears of a candidate of a later term before it replicates it. -/
def overtakenWrite : List Action := [
  .start "a" 1500, .start "b" 3000, .start "c" 3000,
  .elapse 1500,
  .run "a" (.tick 1500),
  .run "b" (.deliver 0 3000),
  .run "a" (.voteAnswer 0),
  .run "c" (.deliver 1 1500),
  .run "a" (.submitCommands [{ operation := .put, key := "x", value := some "1" }]),
  .elapse 1500,
  .run "c" (.tick 3000),
  .run "a" (.deliver 2 3000)]

theorem overtakenWrite_runs :
    ((Cluster.initial threeMembers).runs overtakenWrite).isSome = true := by decide +kernel

def afterOvertakenWrite : Cluster :=
  ((Cluster.initial threeMembers).runs overtakenWrite).get overtakenWrite_runs

theorem overtakenWrite_steps :
    (afterOvertakenWrite.step (.run "a" (.lockReplication 0))).isSome = true := by decide +kernel

/-- What a call raises when it comes to `replicate_log`, with the entries it has appended. -/
def replicateError (p : Process) (i : Nat) : Option (List LogEntry × RaftError) :=
  match p.calls i, (RaftNode.replicateLogStart p.node).result with
  | some (.replicateLog es), .error e => some (es, e)
  | _, _ => none

theorem replicateError_raises {c : Cluster} {v : NodeId} {p : Process} {i : Nat} {e : RaftError}
    {x : LogEntry} {es : List LogEntry} (h : replicateError p i = some (x :: es, e)) :
    SubmitRaises c v p (.lockReplication i) e (x :: es) := by
  unfold replicateError at h
  split at h
  · rename_i hcall hrun
    cases h
    have hraise : SubmitRaises c v p (.lockReplication i) e
        ((Call.replicateLog (x :: es)).entries ++
          (Call.replicateLog (x :: es)).written.map (·.entry)) :=
      .later hcall (Or.inl (List.cons_ne_nil x es)) (.replicateLog hcall hrun)
    simpa [Call.entries, Call.written] using hraise
  · cases h

/-- **A node that stops leading before it replicates rejects a write that is in its log.** -/
theorem rejected_with_trace : ¬ ∀ {m : Members} {c c' : Cluster} {v : NodeId} {p : Process}
    {op : Op} {e : RaftError} {es : List LogEntry}, Reachable m c → c.process v = some p →
      c.step (.run v op) = some c' → SubmitRaises c v p op e es → e.rejects = true →
      NoTrace c c' v es := by
  intro hall
  have herr : (afterOvertakenWrite.process "a").map (replicateError · 0) =
      some (some ([firstEntry], .notLeaderError "Only the leader can replicate log entries")) := by
    decide +kernel
  have hlog : (((afterOvertakenWrite.step (.run "a" (.lockReplication 0))).bind
      (·.process "a")).any fun p => decide (firstEntry ∈ p.node.log.entries)) = true := by
    decide +kernel
  obtain ⟨p, hp, hraise⟩ := Option.map_eq_some_iff.mp herr
  obtain ⟨c', hstep⟩ := Option.isSome_iff_exists.mp overtakenWrite_steps
  rw [hstep] at hlog
  have hreach : Reachable threeMembers afterOvertakenWrite :=
    runs_leads (Option.some_get overtakenWrite_runs).symm
  have hno := hall hreach hp hstep (replicateError_raises hraise) rfl
  obtain ⟨q, hq, hmem⟩ := (Option.any_eq_true _ _).mp hlog
  exact hno.log q hq firstEntry (List.mem_singleton_self _) (of_decide_eq_true hmem)

end PyRaftKv
