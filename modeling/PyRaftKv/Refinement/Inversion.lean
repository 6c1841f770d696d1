/-
# Which stretch a turn runs

`StretchOf` lists, for each turn of a process, the stretches of the node it may run and what they
run on; `turn_stretch` is the inversion.  A fact about one node that every stretch keeps then has
one case for each stretch, and no case for the places the calls and the workers are at.
-/
import PyRaftKv.Refinement.Turns

namespace PyRaftKv

/-- The node after a turn of `p`. -/
inductive StretchOf (c : Cluster) (p : Process) : Op → RaftNode → Prop
  | tickStart {timeout : Nat} :
      StretchOf c p (.tick timeout) (RaftNode.tickStart ⟨c.now, timeout⟩ p.node).node
  | tickResponse {i rpc : Nat} {source target : NodeId} {request : RequestVoteRequest}
      {response : RequestVoteResponse} (hans : c.answers[i]? = some ⟨rpc, .requestVote response⟩)
      (hrpc : c.rpcs[rpc]? = some ⟨source, target, .requestVote request⟩) :
      StretchOf c p (.voteAnswer i) (RaftNode.tickResponse target request response p.node).node
  | requestVote {i timeout : Nat} {source target : NodeId} {r : RequestVoteRequest}
      (hrpc : c.rpcs[i]? = some ⟨source, target, .requestVote r⟩) :
      StretchOf c p (.deliver i timeout)
        (RaftNode.handleRequestVote ⟨c.now, timeout⟩ r p.node).node
  | appendEntries {i timeout : Nat} {source target : NodeId} {r : AppendEntriesRequest}
      (hrpc : c.rpcs[i]? = some ⟨source, target, .appendEntries r⟩) :
      StretchOf c p (.deliver i timeout)
        (RaftNode.handleAppendEntries ⟨c.now, timeout⟩ r p.node).node
  | installSnapshot {i timeout : Nat} {source target : NodeId} {r : InstallSnapshotRequest}
      (hrpc : c.rpcs[i]? = some ⟨source, target, .installSnapshot r⟩) :
      StretchOf c p (.deliver i timeout)
        (RaftNode.handleInstallSnapshot ⟨c.now, timeout⟩ r p.node).node
  | timeoutNow {i timeout : Nat} {source target : NodeId} {r : TimeoutNowRequest}
      (hrpc : c.rpcs[i]? = some ⟨source, target, .timeoutNow r⟩) :
      StretchOf c p (.deliver i timeout) (RaftNode.handleTimeoutNow r p.node).node
  | createSnapshot : StretchOf c p .createSnapshot (RaftNode.createSnapshot p.node).node
  | replicateBuild {f : NodeId} :
      StretchOf c p (.workerBuild f) (RaftNode.replicateBuild f p.node).node
  | replicateResponse {f : NodeId} {i id : Nat} {answer : Answer} {request : ReplicationRequest}
      {term : Int} {success : Bool} (hans : c.answers[i]? = some answer)
      (hreply : Process.replicationAnswer answer.response = some (term, success))
      (hfuture : p.futures f = some ⟨id, .waiting answer.rpc request⟩) :
      StretchOf c p (.workerAnswer f i)
        (RaftNode.replicateResponse f request term success p.node).node
  | submitStart {commands : List RaftCommand} :
      StretchOf c p (.submitCommands commands) (RaftNode.submitStart commands p.node).node
  | replicateLogStart {i : Nat} :
      StretchOf c p (.lockReplication i) (RaftNode.replicateLogStart p.node).node
  | transferStart {i : Nat} {targetId : Option NodeId} :
      StretchOf c p (.lockReplication i) (RaftNode.transferStart targetId p.node).node
  | roundStart {i : Nat} : StretchOf c p (.beginRound i) (RaftNode.roundStart p.node).node
  | replicateLogFinish {i : Nat} :
      StretchOf c p (.finishRound i) (RaftNode.replicateLogFinish p.node).node
  | transferSelect {i : Nat} {targetId : Option NodeId} {term : Int}
      {results : NodeId → Option Bool} :
      StretchOf c p (.finishRound i) (RaftNode.transferSelect targetId term results p.node).node
  | transferMiss {i : Nat} {targetId : Option NodeId} {term : Int}
      {results : NodeId → Option Bool} :
      StretchOf c p (.finishRound i)
        (RaftNode.transferEnd (RaftNode.transferSelect targetId term results p.node).node).node
  | submitResults {i : Nat} {entries : List LogEntry} :
      StretchOf c p (.submitResults i) (RaftNode.submitResults entries p.node).node
  | getStart {key : String} :
      StretchOf c p (.linearizableGet key) (RaftNode.getStart key c.now p.node).node
  | confirmStart {i : Nat} : StretchOf c p (.confirmStart i) (RaftNode.confirmStart p.node).node
  | confirmFinish {i : Nat} {key : String} {acked : List Acknowledgement} {b : Barrier}
      (hcall : p.calls i = some (.confirming key acked b)) :
      StretchOf c p (.confirmFinish i)
        (RaftNode.confirmFinish b.readTerm b.confirmed c.now p.node).node
  | getFinish {i : Nat} {key : String} :
      StretchOf c p (.getFinish i) (RaftNode.getFinish key c.now p.node).node
  | transferResponse {i j : Nat} {term : Int} {response : TimeoutNowResponse} :
      StretchOf c p (.transferAnswer i j)
        (RaftNode.transferEnd (RaftNode.transferResponse term response p.node).node).node
  | transferFail (op : Op) : StretchOf c p op (RaftNode.transferEnd p.node).node
  | roundRaise {i : Nat} :
      StretchOf c p (.beginRound i) (RaftNode.transferEnd (RaftNode.roundStart p.node).node).node
  | same (op : Op) : StretchOf c p op p.node

section Inversion

variable {c : Cluster} {v : NodeId} {p : Process} {op : Op} {t : Turn} {i : Nat} {f : NodeId}

theorem deliver_stretch {timeout : Nat} {rpc : Rpc} (hrpc : c.rpcs[i]? = some rpc) :
    StretchOf c p (.deliver i timeout) (p.deliver ⟨c.now, timeout⟩ i rpc.request).process.node := by
  rcases rpc with ⟨source, target, r | r | r | r⟩
  · exact .requestVote hrpc
  · exact .appendEntries hrpc
  · exact .installSnapshot hrpc
  · exact .timeoutNow hrpc

theorem workerBuild_stretch {next : Nat} (ht : p.workerBuild f next = some t) :
    StretchOf c p (.workerBuild f) t.process.node := by
  unfold Process.workerBuild at ht
  split at ht
  · simp only at ht
    split at ht <;> cases ht <;> exact .replicateBuild
  · cases ht

theorem workerAnswer_stretch {answer : Answer} (hans : c.answers[i]? = some answer)
    (ht : p.workerAnswer f answer = some t) :
    StretchOf c p (.workerAnswer f i) t.process.node := by
  unfold Process.workerAnswer at ht
  split at ht
  · rename_i id rpc request term success hfuture hreply
    split at ht
    · cases ht
    · rename_i hrpc
      obtain rfl := not_not.mp hrpc
      cases ht
      exact .replicateResponse hans hreply hfuture
  · cases ht

theorem lockReplication_stretch (ht : p.lockReplication i = some t) :
    StretchOf c p (.lockReplication i) t.process.node := by
  unfold Process.lockReplication at ht
  split at ht
  · cases ht
  simp only at ht
  split at ht
  · split at ht <;> cases ht <;> exact .replicateLogStart
  · cases ht
    exact .same _
  · split at ht <;> cases ht <;> exact .transferStart
  · cases ht

/-- What is left of the node where a call raises inside a round. -/
theorem abort_stretch (op : Op) (i : Nat) : StretchOf c p op (p.abort i).node := by
  unfold Process.abort
  split
  · exact .transferFail op
  · exact .same op

theorem beginRound_stretch (ht : p.beginRound i = some t) :
    StretchOf c p (.beginRound i) t.process.node := by
  unfold Process.beginRound at ht
  split at ht
  · simp only at ht
    split at ht <;> cases ht
    · simp only [Process.abort]
      split
      · exact .roundRaise
      · exact .roundStart
    · exact .roundStart
  · cases ht

theorem submitTask_stretch (ht : p.submitTask i f = some t) :
    StretchOf c p (.submitTask i f) t.process.node := by
  unfold Process.submitTask at ht
  split at ht
  · split at ht
    · cases ht
    split at ht <;> cases ht
    · exact abort_stretch _ _
    all_goals exact .same _
  · cases ht

theorem collectTask_stretch (ht : p.collectTask i f = some t) :
    StretchOf c p (.collectTask i f) t.process.node := by
  unfold Process.collectTask at ht
  split at ht
  · split at ht
    · cases ht
    split at ht <;> cases ht
    · exact abort_stretch _ _
    all_goals exact .same _
  · cases ht

theorem finishRound_stretch {next : Nat} (ht : p.finishRound i next = some t) :
    StretchOf c p (.finishRound i) t.process.node := by
  unfold Process.finishRound at ht
  split at ht
  · simp only at ht
    split at ht
    · cases ht
      exact .replicateLogFinish
    · split at ht <;> cases ht <;> exact .replicateLogFinish
  · cases ht
    exact .same _
  · simp only at ht
    split at ht <;> cases ht
    · exact .transferSelect
    · exact .transferMiss
  · cases ht

theorem confirmPoll_stretch (ht : p.confirmPoll i f = some t) :
    StretchOf c p (.confirmPoll i f) t.process.node := by
  unfold Process.confirmPoll at ht
  split at ht
  · split at ht
    · cases ht
    split at ht
    · cases ht
      exact .same _
    · split at ht <;> cases ht <;> exact .same _
    · cases ht
      exact .same _
    · cases ht
      exact .same _
  · cases ht

/-- **Every turn runs one of the stretches.** -/
theorem turn_stretch (ht : p.turn c v op = some t) : StretchOf c p op t.process.node := by
  rcases op with timeout | j | ⟨j, timeout⟩ | _ | f | ⟨f, j⟩ | f | commands | _ | _ | i | i |
    ⟨i, f⟩ | ⟨i, f⟩ | i | i | key | i | ⟨i, f⟩ | i | i | targetId | ⟨i, j⟩ | i
  · simp only [Process.turn] at ht
    split at ht <;> cases ht
    exact .tickStart
  · simp only [Process.turn] at ht
    split at ht
    · rename_i hans
      split at ht
      · rename_i hrpc
        split at ht <;> cases ht
        exact .tickResponse hans hrpc
      · cases ht
    · cases ht
  · simp only [Process.turn] at ht
    split at ht
    · rename_i hrpc
      split at ht <;> cases ht
      exact deliver_stretch hrpc
    · cases ht
  · cases ht
    exact .createSnapshot
  · exact workerBuild_stretch ht
  · obtain ⟨answer, hans, ht⟩ := Option.bind_eq_some_iff.mp ht
    exact workerAnswer_stretch hans ht
  · simp only [Process.turn, Process.workerFail] at ht
    split at ht <;> cases ht
    exact .same _
  · simp only [Process.turn] at ht
    split at ht <;> cases ht <;> exact .submitStart
  · cases ht
    exact .same _
  · cases ht
    exact .same _
  · exact lockReplication_stretch ht
  · exact beginRound_stretch ht
  · exact submitTask_stretch ht
  · exact collectTask_stretch ht
  · exact finishRound_stretch ht
  · simp only [Process.turn, Process.submitResults] at ht
    split at ht
    · split at ht
      · cases ht
        exact .submitResults
      · cases ht
        simp only
        split <;> exact .submitResults
    · cases ht
  · simp only [Process.turn] at ht
    split at ht <;> cases ht <;> exact .getStart
  · simp only [Process.turn, Process.confirmStart] at ht
    split at ht
    · split at ht
      · cases ht
      split at ht <;> cases ht <;> exact .confirmStart
    · cases ht
  · exact confirmPoll_stretch ht
  · simp only [Process.turn, Process.confirmFinish] at ht
    split at ht
    · rename_i hcall
      split at ht <;> cases ht <;> exact .confirmFinish hcall
    · cases ht
  · simp only [Process.turn] at ht
    split at ht <;> cases ht
    exact .getFinish
  · cases ht
    exact .same _
  · obtain ⟨answer, -, ht⟩ := Option.bind_eq_some_iff.mp ht
    unfold Process.transferAnswer at ht
    split at ht
    · split at ht <;> cases ht
      exact .transferResponse
    · cases ht
  · simp only [Process.turn] at ht
    split at ht <;> cases ht
    exact .transferFail _

end Inversion

end PyRaftKv
