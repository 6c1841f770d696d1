/-
# The cluster as a group of peers

`Refines c g` ties a state of the cluster to a sound group: every running member is up as its
peer, every member that is down has its peer on disk, every request that was ever sent tells the
truth about the history, and every answer about the member that gave it.

A TURN is what one stretch of one member does.  `Promised` is what the cluster needs of it: the
member's part is `Lawful`, what it sends and answers is true, and no worker waits for a request
that was not sent.  `turn_promised` goes through the stretches one by one; those that only move a
call or a worker from place to place are all of one kind (`Quiet`).
-/
import PyRaftKv.Cluster
import PyRaftKv.Refinement.Elections
import PyRaftKv.Refinement.Following
import PyRaftKv.Refinement.Leading

open Consensus

namespace PyRaftKv

/-! ## 1. Messages and what they say -/

abbrev Grp := Group NodeId LogEntry Int

/-- A request tells the truth. -/
def Known (h : Hist) (rpc : Rpc) : Prop :=
  match rpc.request with
  | .requestVote r => r.candidateId = rpc.source ∧ Candidacy h r
  | .appendEntries r => Appends h r
  | .installSnapshot r => Installs h r
  | .timeoutNow _ => True

/-- An answer tells what its member did: it voted, or it acknowledged. -/
def Answered (h : Hist) (rpc : Rpc) (a : Response) : Prop :=
  match rpc.request, a with
  | .requestVote r, .requestVote a => a.voteGranted = true → a.term = r.term ∧
      ∃ b ∈ h.ballots, b.voter = rpc.target ∧ b.candidate = r.candidateId ∧ b.term = r.term
  | .appendEntries r, .appendEntries a => a.success = true → a.term = r.term ∧
      (ReplicationRequest.appendEntries r).Acked h rpc.target
  | .installSnapshot r, .installSnapshot a => a.success = true → a.term = r.term ∧
      (ReplicationRequest.installSnapshot r).Acked h rpc.target
  | .timeoutNow _, .timeoutNow _ => True
  | _, _ => False

/-- A member that answers success holds what it acknowledges. -/
def Upheld (h : Hist) (p : PeerState) (rpc : Rpc) (a : Response) : Prop :=
  match rpc.request, a with
  | .appendEntries r, .appendEntries a => a.success = true →
      ∃ k : Nat, r.lastReplicated = k ∧ h.Holds r.term k p.log
  | .installSnapshot r, .installSnapshot a => a.success = true →
      ∃ k : Nat, r.lastIncludedIndex = k ∧ h.Holds r.term k p.log
  | _, _ => True

section Extension

variable {h h' : Hist} {rpc : Rpc} {a : Response}

theorem Candidacy.extend {r : RequestVoteRequest} (hb : h.ballots ⊆ h'.ballots)
    (hr : Candidacy h r) : Candidacy h' r := by
  obtain ⟨b, hmem, hrest⟩ := hr
  exact ⟨b, hb hmem, hrest⟩

theorem ReplicationRequest.Acked.extend {f : NodeId} {r : ReplicationRequest}
    (ha : h.acks ⊆ h'.acks) (hr : r.Acked h f) : r.Acked h' f := by
  obtain ⟨k, hk, hmem⟩ := hr
  exact ⟨k, hk, ha hmem⟩

theorem Known.extend {Q : Quorums NodeId} (hx : h.Extends h') (hs : h.Sound Q)
    (hk : Known h rpc) : Known h' rpc := by
  rcases rpc with ⟨source, target, r | r | r | r⟩
  · exact ⟨hk.1, hk.2.extend hx.ballots⟩
  · exact Appends.extend hx hs hk
  · exact Installs.extend hx hs hk
  · trivial

theorem Answered.extend (hx : h.Extends h') (ha : Answered h rpc a) : Answered h' rpc a := by
  rcases rpc with ⟨source, target, r | r | r | r⟩ <;> rcases a with a | a | a | a <;>
    first
      | exact ha.elim
      | trivial
      | skip
  · intro hg
    obtain ⟨ht, b, hb, hrest⟩ := ha hg
    exact ⟨ht, b, hx.ballots hb, hrest⟩
  · exact fun hg => ⟨(ha hg).1, (ha hg).2.extend hx.acks⟩
  · exact fun hg => ⟨(ha hg).1, (ha hg).2.extend hx.acks⟩

end Extension

/-! ## 2. The relation -/

/-- A worker of `p` waits for the answer to the request at `rpc`. -/
def Process.Waits (p : Process) (f : NodeId) (rpc : Nat) (request : ReplicationRequest) : Prop :=
  ∃ id, p.futures f = some ⟨id, .waiting rpc request⟩

/-- **The cluster is the group `g`.** -/
structure Refines (c : Cluster) (g : Grp) : Prop where
  sound : g.Sound c.members.quorums
  whole : ∀ t, Whole (g.history.leaderLog t)
  up : ∀ v p, c.process v = some p → Up c.members v p.node (c.disk v) (g.peer v) g.history
  down : ∀ v, c.process v = none → OnDisk (c.disk v) (g.peer v) ∧ (g.peer v).role = .follower
  waiting : ∀ v p f rpc request, c.process v = some p → p.Waits f rpc request →
    c.rpcs[rpc]? = some ⟨v, f, request.toRequest⟩
  rpcs : ∀ rpc ∈ c.rpcs, Known g.history rpc
  answers : ∀ a ∈ c.answers, ∃ rpc, c.rpcs[a.rpc]? = some rpc ∧
    Answered g.history rpc a.response ∧ a.response.term ≤ (g.peer rpc.target).term
  leaders : ∀ l ∈ c.leaders, ∃ e ∈ g.history.elections, e.term = l.1 ∧ e.leader = l.2
  committed : ∀ l, g.history.Decided l ↔ l <+: c.committed

theorem Refines.live {c : Cluster} {g : Grp} (hr : Refines c g) {v : NodeId} {p : Process}
    (hp : c.process v = some p) :
    Live c.members v p.node (c.disk v) (g.peer v) g.history :=
  { hr.up v p hp with history := hr.sound.history, peer := hr.sound.peer v, whole := hr.whole }

/-- What a turn of member `v` promises, when the member's peer goes on to `p'`. -/
structure Promised (c : Cluster) (g : Grp) (v : NodeId) (op : Op) (p : Process) (t : Turn)
    (lost : Nat → Prop) (h' : Hist) (p' : PeerState) : Prop where
  lawful : Lawful c.members v g.history (g.peer v) (c.disk v) lost t.process.node t.writes h' p'
  decisions : h'.decisions = g.history.decisions ∨
    Cluster.Op.advances op = true ∧ t.writes ≠ [] ∧ p'.role = .leader ∧
      p'.base = (g.peer v).base ∧ ∃ R, h'.decisions = insert ⟨p'.term, p'.commit, R⟩
        g.history.decisions
  waiting : ∀ f rpc request, t.process.Waits f rpc request → p.Waits f rpc request ∨
    rpc = c.rpcs.length ∧ t.sends = [(f, request.toRequest)]
  sends : ∀ s ∈ t.sends, Known h' ⟨v, s.1, s.2⟩
  answer : ∀ a, t.answer = some a → ∃ rpc, c.rpcs[a.rpc]? = some rpc ∧ rpc.target = v ∧
    Answered h' rpc a.response ∧ Upheld h' p' rpc a.response ∧ a.response.term = p'.term

/-! ## 3. Calls and workers that move -/

namespace Process

variable (p : Process) (id : Nat) (f : NodeId) {g : NodeId} {rpc : Nat}
  {request : ReplicationRequest}

@[simp] theorem node_setCall (call : Option Call) : (p.setCall id call).node = p.node := rfl
@[simp] theorem node_newCall (call : Call) : (p.newCall call).node = p.node := rfl
@[simp] theorem node_setFuture (future : Option Future) :
    (p.setFuture f future).node = p.node := rfl
@[simp] theorem node_endCall : (p.endCall id).node = p.node := rfl
@[simp] theorem calls_abort : (p.abort id).calls = Function.update p.calls id none := by
  unfold abort
  split <;> rfl
@[simp] theorem futures_abort : (p.abort id).futures = p.futures := by
  unfold abort
  split <;> rfl
@[simp] theorem node_release (call : Call) : (p.release id call).node = p.node := rfl
@[simp] theorem node_after {α : Type} (o : Outcome α) : (p.after o).node = o.node := rfl
@[simp] theorem node_submitWorker : (p.submitWorker f).2.node = p.node := rfl

@[simp] theorem waits_setCall (call : Option Call) :
    (p.setCall id call).Waits g rpc request ↔ p.Waits g rpc request := Iff.rfl
@[simp] theorem waits_newCall (call : Call) :
    (p.newCall call).Waits g rpc request ↔ p.Waits g rpc request := Iff.rfl
@[simp] theorem waits_endCall : (p.endCall id).Waits g rpc request ↔ p.Waits g rpc request :=
  Iff.rfl
@[simp] theorem waits_release (call : Call) :
    (p.release id call).Waits g rpc request ↔ p.Waits g rpc request := Iff.rfl
@[simp] theorem waits_after {α : Type} (o : Outcome α) :
    (p.after o).Waits g rpc request ↔ p.Waits g rpc request := Iff.rfl
@[simp] theorem waits_lock (holder : Option Nat) :
    ({ p with lockHolder := holder } : Process).Waits g rpc request ↔ p.Waits g rpc request :=
  Iff.rfl

/-- A slot that is filled with anything but a waiting worker adds no worker that waits. -/
theorem Waits.of_setFuture {p : Process} {f : NodeId} {future : Option Future}
    (hf : ∀ id, future ≠ some ⟨id, .waiting rpc request⟩)
    (hw : (p.setFuture f future).Waits g rpc request) : p.Waits g rpc request := by
  obtain ⟨id, hw⟩ := hw
  by_cases hg : g = f
  · subst hg
    exact absurd ((Function.update_self _ _ _).symm.trans hw) (hf id)
  · exact ⟨id, (Function.update_of_ne hg _ _).symm.trans hw⟩

theorem Waits.of_submitWorker {p : Process} {f : NodeId}
    (hw : (p.submitWorker f).2.Waits g rpc request) : p.Waits g rpc request :=
  Waits.of_setFuture (p := p) (f := f) (by simp)
    (show (p.setFuture f (some ⟨p.nextId, .queued⟩)).Waits g rpc request from hw)

end Process

/-- A turn that only moves calls and workers. -/
structure Quiet (m : Members) (v : NodeId) (pe : PeerState) (h : Hist) (p : Process) (t : Turn) :
    Prop where
  idle : Idle m v pe h p.node t.process.node
  writes : t.writes = []
  sends : t.sends = []
  answer : t.answer = none
  waits : ∀ f rpc request, t.process.Waits f rpc request → p.Waits f rpc request

section Quiet

variable {m : Members} {v : NodeId} {p : Process} {d : DataDir} {pe : PeerState} {h : Hist}
  {t : Turn} {i : Nat} {f : NodeId}

theorem lockReplication_quiet (hu : Up m v p.node d pe h) (ht : p.lockReplication i = some t) :
    Quiet m v pe h p t := by
  unfold Process.lockReplication at ht
  split at ht
  · cases ht
  simp only at ht
  split at ht
  · obtain ⟨result, n', hrun, hi⟩ := replicateLogStart_idle hu
    rw [hrun] at ht
    rcases result with e | u <;> cases ht <;> exact ⟨hi, rfl, rfl, rfl, fun _ _ _ => id⟩
  · cases ht
    exact ⟨.refl hu, rfl, rfl, rfl, fun _ _ _ => id⟩
  · rename_i targetId _
    obtain ⟨result, n', hrun, hi⟩ := transferStart_idle hu targetId
    rw [hrun] at ht
    rcases result with e | _ | term <;> cases ht <;>
      exact ⟨hi, rfl, rfl, rfl, fun _ _ _ => id⟩
  · cases ht

/-- A call that raises inside a round. -/
theorem abort_quiet {p' : Process} (hi : Idle m v pe h p.node p'.node)
    (hf : p'.futures = p.futures) :
    Quiet m v pe h p { process := p'.abort i } := by
  refine ⟨?_, rfl, rfl, rfl, fun f rpc request hw => ?_⟩
  · change Idle m v pe h p.node (p'.abort i).node
    unfold Process.abort
    split
    · exact ⟨by rw [hi.same]; rfl, hi.table⟩
    · exact hi
  · unfold Process.Waits at hw ⊢
    simpa [hf] using hw

theorem beginRound_quiet (hu : Up m v p.node d pe h) (ht : p.beginRound i = some t) :
    Quiet m v pe h p t := by
  unfold Process.beginRound at ht
  split at ht
  · obtain ⟨result, n', hrun, hi⟩ := roundStart_idle hu
    rw [hrun] at ht
    rcases result with e | followers <;> cases ht
    · exact abort_quiet hi rfl
    · exact ⟨hi, rfl, rfl, rfl, fun _ _ _ => id⟩
  · cases ht

theorem submitTask_quiet (hu : Up m v p.node d pe h) (ht : p.submitTask i f = some t) :
    Quiet m v pe h p t := by
  unfold Process.submitTask at ht
  split at ht
  · split at ht
    · cases ht
    split at ht <;> cases ht
    · exact abort_quiet (.refl hu) rfl
    · exact ⟨.refl hu, rfl, rfl, rfl, fun _ _ _ => Process.Waits.of_submitWorker⟩
    · exact ⟨.refl hu, rfl, rfl, rfl, fun _ _ _ => id⟩
    · exact ⟨.refl hu, rfl, rfl, rfl, fun _ _ _ => Process.Waits.of_submitWorker⟩
  · cases ht

theorem collectTask_quiet (hu : Up m v p.node d pe h) (ht : p.collectTask i f = some t) :
    Quiet m v pe h p t := by
  unfold Process.collectTask at ht
  split at ht
  · split at ht
    · cases ht
    split at ht <;> cases ht
    · exact abort_quiet (.refl hu) rfl
    · exact ⟨.refl hu, rfl, rfl, rfl,
        fun _ _ _ => Process.Waits.of_setFuture (p := p) (f := f) (by simp)⟩
  · cases ht

theorem workerFail_quiet (hu : Up m v p.node d pe h) (ht : p.workerFail f = some t) :
    Quiet m v pe h p t := by
  unfold Process.workerFail at ht
  split at ht <;> cases ht
  exact ⟨.refl hu, rfl, rfl, rfl,
    fun _ _ _ => Process.Waits.of_setFuture (p := p) (f := f) (by simp)⟩

theorem submitResults_quiet (hu : Up m v p.node d pe h) (ht : p.submitResults i = some t) :
    Quiet m v pe h p t := by
  unfold Process.submitResults at ht
  split at ht
  · rename_i entries _
    obtain ⟨results, hrun⟩ := submitResults_idle (n := p.node) entries
    simp only [hrun] at ht
    cases ht
    refine ⟨?_, rfl, rfl, rfl, fun _ _ _ hw => ?_⟩
    · split <;> exact .refl hu
    · split at hw <;> exact hw
  · cases ht

theorem confirmStart_quiet (hu : Up m v p.node d pe h) {now next : Nat}
    (ht : p.confirmStart i now next = some t) : Quiet m v pe h p t := by
  unfold Process.confirmStart at ht
  split at ht
  · split at ht
    · cases ht
    obtain ⟨result, n', hrun, hi⟩ := confirmStart_idle hu
    simp only [hrun] at ht
    rcases result with e | ⟨readTerm, followers⟩ <;> cases ht <;>
      exact ⟨hi, rfl, rfl, rfl, fun _ _ _ => id⟩
  · cases ht

theorem confirmPoll_quiet (hu : Up m v p.node d pe h) (ht : p.confirmPoll i f = some t) :
    Quiet m v pe h p t := by
  unfold Process.confirmPoll at ht
  split at ht
  · split at ht
    · cases ht
    split at ht
    · cases ht
      exact ⟨.refl hu, rfl, rfl, rfl, fun _ _ _ => id⟩
    · split at ht <;> cases ht
      · exact ⟨.refl hu, rfl, rfl, rfl,
          fun _ _ _ => Process.Waits.of_setFuture (p := p) (f := f) (by simp)⟩
      · exact ⟨.refl hu, rfl, rfl, rfl, fun _ _ _ => Process.Waits.of_submitWorker⟩
    · cases ht
      exact ⟨.refl hu, rfl, rfl, rfl, fun _ _ _ => id⟩
    · cases ht
      exact ⟨.refl hu, rfl, rfl, rfl, fun _ _ _ => Process.Waits.of_submitWorker⟩
  · cases ht

theorem confirmFinish_quiet (hu : Up m v p.node d pe h) {now : Nat}
    (ht : p.confirmFinish i now = some t) : Quiet m v pe h p t := by
  unfold Process.confirmFinish at ht
  split at ht
  · rename_i b _
    obtain ⟨result, n', hrun, hi⟩ := confirmFinish_idle hu b.readTerm b.confirmed now
    simp only [hrun] at ht
    rcases result with e | u <;> cases ht <;> exact ⟨hi, rfl, rfl, rfl, fun _ _ _ => id⟩
  · cases ht

theorem transferDone_quiet (hu : Up m v p.node d pe h) :
    Quiet m v pe h p (p.transferDone i []) :=
  ⟨⟨rfl, hu.table⟩, rfl, rfl, rfl, fun _ _ _ => id⟩

end Quiet

/-! ## 4. Turns that move the peer -/

/-- The positions of its log a member may lose in a turn: only a leader's request that
it does not refuse takes any. -/
def Lost (c : Cluster) (h : Hist) (p : PeerState) : Op → Nat → Prop
  | .deliver j _, i =>
    match c.rpcs[j]?.map Rpc.request with
    | some (.appendEntries r) => p.term ≤ r.term ∧ FollowsOn r p ∧ Overwrites r p i
    | some (.installSnapshot r) => p.term ≤ r.term ∧ Admits r p ∧ Replaces h r p i
    | _ => False
  | _, _ => False

section Turns

variable {c : Cluster} {g : Grp} {v : NodeId} {p : Process} {op : Op} {t : Turn}

theorem Quiet.promised (hr : Refines c g) (hp : c.process v = some p)
    (hq : Quiet c.members v (g.peer v) g.history p t) (lost : Nat → Prop) :
    Promised c g v op p t lost g.history (g.peer v) where
  lawful := hq.writes ▸ .quiet (hr.live hp) ((hr.up v p hp).idle hq.idle)
  decisions := Or.inl rfl
  waiting f rpc request hwait := Or.inl (hq.waits f rpc request hwait)
  sends s hmem := by rw [hq.sends] at hmem; cases hmem
  answer a hmem := by rw [hq.answer] at hmem; cases hmem

/-- A turn that neither sends nor answers. -/
theorem Promised.silent {lost : Nat → Prop} {h' : Hist} {p' : PeerState}
    (hla : Lawful c.members v g.history (g.peer v) (c.disk v) lost t.process.node t.writes h' p')
    (hdec : h'.decisions = g.history.decisions) (hs : t.sends = []) (ha : t.answer = none)
    (hw : ∀ f rpc request, t.process.Waits f rpc request → p.Waits f rpc request) :
    Promised c g v op p t lost h' p' where
  lawful := hla
  decisions := Or.inl hdec
  waiting f rpc request hwait := Or.inl (hw f rpc request hwait)
  sends s hmem := by rw [hs] at hmem; cases hmem
  answer a hmem := by rw [ha] at hmem; cases hmem

variable (hr : Refines c g) (hp : c.process v = some p)
include hr hp

/-- **A delivered request** is answered for what the member then is. -/
theorem deliver_promised {i timeout : Nat} {rpc : Rpc} (hi : c.rpcs[i]? = some rpc)
    (htarget : rpc.target = v) :
    ∃ h' p', Promised c g v (.deliver i timeout) p
      (p.deliver ⟨c.now, timeout⟩ i rpc.request)
      (Lost c g.history (g.peer v) (.deliver i timeout)) h' p' := by
  have hl := hr.live hp
  have hknown := hr.rpcs rpc (List.mem_of_getElem? hi)
  rcases rpc with ⟨source, target, r | r | r | r⟩
  · obtain ⟨a, n', s, h', hrun, hstate, hla, hdec, hterm, hgrant⟩ :=
      handleRequestVote_lawful hl hknown.2 ⟨c.now, timeout⟩
    refine ⟨h', withState (g.peer v) s, ?_⟩
    simp only [Process.deliver, hrun]
    refine ⟨?_, Or.inl hdec, fun _ _ _ => Or.inl, by simp, ?_⟩
    · exact hla.mono fun _ => False.elim
    · rintro _ ⟨⟩
      exact ⟨_, hi, htarget, fun hg => ⟨hterm.trans (hgrant hg).1, htarget ▸ (hgrant hg).2⟩,
        trivial, hterm⟩
  · obtain ⟨a, n', ws, h', p', hrun, hla, hdec, hterm, hack⟩ :=
      handleAppendEntries_lawful hl hknown ⟨c.now, timeout⟩
    refine ⟨h', p', ?_⟩
    simp only [Process.deliver, hrun]
    refine ⟨?_, Or.inl hdec, fun _ _ _ => Or.inl, by simp, ?_⟩
    · refine hla.mono fun j hj => ?_
      simpa [Lost, hi] using hj
    · rintro _ ⟨⟩
      refine ⟨_, hi, htarget, fun hg => ?_, fun hg => ?_, hterm⟩
      · obtain ⟨ht, k, hk, hmem, -⟩ := hack hg
        exact ⟨ht, k, hk, htarget ▸ hmem⟩
      · obtain ⟨-, k, hk, -, hheld⟩ := hack hg
        exact ⟨k, hk, hheld⟩
  · obtain ⟨a, n', ws, h', p', hrun, hla, hdec, hterm, hack⟩ :=
      handleInstallSnapshot_lawful hl hknown ⟨c.now, timeout⟩
    refine ⟨h', p', ?_⟩
    simp only [Process.deliver, hrun]
    refine ⟨?_, Or.inl hdec, fun _ _ _ => Or.inl, by simp, ?_⟩
    · refine hla.mono fun j hj => ?_
      simpa [Lost, hi] using hj
    · rintro _ ⟨⟩
      refine ⟨_, hi, htarget, fun hg => ?_, fun hg => ?_, hterm⟩
      · obtain ⟨ht, k, hk, hmem, -⟩ := hack hg
        exact ⟨ht, k, hk, htarget ▸ hmem⟩
      · obtain ⟨-, k, hk, -, hheld⟩ := hack hg
        exact ⟨k, hk, hheld⟩
  · obtain ⟨a, n', s, ws, hrun, hstate, hla, hterm⟩ := handleTimeoutNow_lawful hl r
    refine ⟨g.history, withState (g.peer v) s, ?_⟩
    simp only [Process.deliver, hrun]
    refine ⟨?_, Or.inl rfl, fun _ _ _ => Or.inl, by simp, ?_⟩
    · exact hla.mono fun _ => False.elim
    · rintro _ ⟨⟩
      exact ⟨_, hi, htarget, trivial, trivial, hterm⟩

theorem tick_promised {timeout : Nat} (ht : p.turn c v (.tick timeout) = some t) :
    ∃ h' p', Promised c g v (.tick timeout) p t (fun _ => False) h' p' := by
  have hl := hr.live hp
  obtain ⟨request, n', s, ws, h', hrun, hstate, hla, hdec, hreq⟩ :=
    tickStart_lawful hl ⟨c.now, timeout⟩
  simp only [Process.turn, hrun] at ht
  split at ht <;> cases ht
  refine ⟨h', withState (g.peer v) s, hla, Or.inl hdec, fun _ _ _ => Or.inl, fun x hx => ?_,
    fun a ha => nomatch ha⟩
  rcases request with _ | r
  · cases hx
  · obtain ⟨f, -, rfl⟩ := List.mem_map.mp hx
    exact hreq r rfl

theorem voteAnswer_promised {i : Nat} (ht : p.turn c v (.voteAnswer i) = some t) :
    ∃ h' p', Promised c g v (.voteAnswer i) p t (fun _ => False) h' p' := by
  have hl := hr.live hp
  simp only [Process.turn] at ht
  split at ht
  · rename_i rpc response hans
    split at ht
    · rename_i source target request hrpc
      split at ht
      · cases ht
      rename_i hsource
      have hsource : source = v := not_not.mp hsource
      -- the answer is to a request of this member, so a vote it brings is a vote for it
      obtain ⟨rpc', hrpc', hanswered, -⟩ := hr.answers _ (List.mem_of_getElem? hans)
      obtain rfl := Option.some.inj (hrpc.symm.trans hrpc')
      obtain ⟨hcand, -⟩ := hr.rpcs _ (List.mem_of_getElem? hrpc)
      obtain ⟨n', s, ws, h', hrun, hstate, hla, hdec⟩ := tickResponse_lawful hl target request
        response fun hg => by
          obtain ⟨hterm, b, hb, hbv, hbc, hbt⟩ := hanswered hg
          exact ⟨b, hb, hbv, hbc.trans (hcand.trans hsource), hbt.trans hterm.symm⟩
      simp only [hrun] at ht
      cases ht
      exact ⟨h', _, .silent hla hdec rfl rfl fun _ _ _ => id⟩
    · cases ht
  · cases ht

theorem createSnapshot_promised (ht : p.turn c v .createSnapshot = some t) :
    ∃ h' p', Promised c g v .createSnapshot p t (fun _ => False) h' p' := by
  have hl := hr.live hp
  simp only [Process.turn] at ht
  rcases createSnapshot_lawful hl with hrun | ⟨n', ws, hrun, hla, -⟩
  · simp only [hrun] at ht
    cases ht
    exact ⟨_, _, .silent (.quiet hl hl.toUp) rfl rfl rfl fun _ _ _ => id⟩
  · simp only [hrun] at ht
    cases ht
    exact ⟨_, _, .silent hla rfl rfl rfl fun _ _ _ => id⟩

theorem workerBuild_promised {f : NodeId} (ht : p.turn c v (.workerBuild f) = some t) :
    ∃ h' p', Promised c g v (.workerBuild f) p t (fun _ => False) h' p' := by
  have hl := hr.live hp
  obtain ⟨result, hrun, hsent, -⟩ := replicateBuild_sent hl f
  simp only [Process.turn, Process.workerBuild, hrun] at ht
  split at ht
  · rcases result with e | _ | request <;> cases ht
    · exact ⟨_, _, .silent (.quiet hl hl.toUp) rfl rfl rfl
        fun _ _ _ => Process.Waits.of_setFuture (p := p) (f := f) (by simp)⟩
    · exact ⟨_, _, .silent (.quiet hl hl.toUp) rfl rfl rfl
        fun _ _ _ => Process.Waits.of_setFuture (p := p) (f := f) (by simp)⟩
    · refine ⟨_, _, .quiet hl hl.toUp, Or.inl rfl, ?_, ?_, fun a ha => nomatch ha⟩
      · rintro f' rpc request' ⟨id, hw⟩
        by_cases hf : f' = f
        · subst hf
          cases (Function.update_self _ _ _).symm.trans hw
          exact Or.inr ⟨rfl, rfl⟩
        · exact Or.inl ⟨id, (Function.update_of_ne hf _ _).symm.trans hw⟩
      · intro x hx
        obtain rfl := List.mem_singleton.mp hx
        obtain ⟨-, -, hsent⟩ := hsent request rfl
        rcases request with r | r
        · exact hsent
        · exact hsent
  · cases ht

theorem workerAnswer_promised {f : NodeId} {i : Nat}
    (ht : p.turn c v (.workerAnswer f i) = some t) :
    ∃ h' p', Promised c g v (.workerAnswer f i) p t (fun _ => False) h' p' := by
  have hl := hr.live hp
  simp only [Process.turn] at ht
  obtain ⟨answer, hans, ht⟩ := Option.bind_eq_some_iff.mp ht
  unfold Process.workerAnswer at ht
  split at ht
  · rename_i id rpc request term success hfuture hread
    split at ht
    · cases ht
    rename_i hrpc
    have hrpc : answer.rpc = rpc := not_not.mp hrpc
    -- the request the worker waits for is the one that was answered
    have hwait := hr.waiting v p f rpc request hp ⟨id, hfuture⟩
    obtain ⟨rpc', hrpc', hanswered, -⟩ := hr.answers _ (List.mem_of_getElem? hans)
    rw [hrpc] at hrpc'
    obtain rfl := Option.some.inj (hwait.symm.trans hrpc')
    have hak : success = true → request.Acked g.history f := by
      rcases request with r | r <;> rcases hresp : answer.response with a | a | a | a <;>
        rw [hresp] at hanswered hread <;>
        simp only [Process.replicationAnswer, Option.some.injEq, Prod.mk.injEq,
          reduceCtorEq] at hread <;>
        obtain ⟨-, rfl⟩ := hread <;>
        first
          | exact fun hg => (hanswered hg).2
          | exact hanswered.elim
    obtain ⟨result, n', s, ws, hrun, hstate, hla, -⟩ :=
      replicateResponse_lawful hl term hak
    simp only [hrun] at ht
    cases ht
    refine ⟨g.history, withState (g.peer v) s, .silent hla rfl rfl rfl fun _ _ _ hw => ?_⟩
    refine Process.Waits.of_setFuture (p := p) (f := f) (fun id hid => ?_) hw
    rcases result with e | _ | b <;> cases hid
  · cases ht

theorem submitCommands_promised {commands : List RaftCommand}
    (ht : p.turn c v (.submitCommands commands) = some t) :
    ∃ h' p', Promised c g v (.submitCommands commands) p t (fun _ => False) h' p' := by
  have hl := hr.live hp
  simp only [Process.turn] at ht
  rcases submitStart_lawful hl commands with ⟨result, hrun, hnone, -⟩ |
    ⟨es, n', ws, h', hrun, hla, hdec, -⟩
  · simp only [hrun] at ht
    split at ht
    · exact absurd (hnone _ rfl) (by simp)
    · cases ht
      exact ⟨_, _, .silent (.quiet hl hl.toUp) rfl rfl rfl fun _ _ _ => id⟩
  · simp only [hrun] at ht
    split at ht <;> cases ht <;> exact ⟨h', _, .silent hla hdec rfl rfl fun _ _ _ => id⟩

/-- **A call leaves its round**: the one turn in which a decision may be made. -/
theorem finishRound_promised {i : Nat} (ht : p.turn c v (.finishRound i) = some t) :
    ∃ h' p', Promised c g v (.finishRound i) p t (fun _ => False) h' p' := by
  have hl := hr.live hp
  simp only [Process.turn, Process.finishRound] at ht
  split at ht
  · rename_i entries _ _
    rcases replicateLogFinish_lawful hl with hrun | ⟨n', s, h', k, R, hrun, hla, hlead, -, hdec⟩
    · simp only [hrun] at ht
      split at ht <;> cases ht <;>
        exact ⟨_, _, .silent (.quiet hl hl.toUp) rfl rfl rfl fun _ _ _ => id⟩
    · have hpromise : ∀ t : Turn, t.process.node = n' → t.writes = saveState s → t.sends = [] →
          t.answer = none →
          (∀ f rpc request, t.process.Waits f rpc request → p.Waits f rpc request) →
          Promised c g v (.finishRound i) p t (fun _ => False) h'
            { g.peer v with commit := k } := by
        intro t hn hws hs ha hw
        refine ⟨by rwa [hn, hws], Or.inr ⟨rfl, by rw [hws]; simp [saveState], ?_, rfl, R, hdec⟩,
          fun _ _ _ h => Or.inl (hw _ _ _ h), ?_, ?_⟩
        · change (g.peer v).role = .leader
          rw [hl.mirrors.role, NodeRole.role_leader]
          exact hlead.1
        · rw [hs]
          simp
        · rw [ha]
          simp
      have hws : Outcome.writes ⟨.ok (), n', (saveState s).map fun w =>
          (⟨{ p.node with state := s }, w⟩ : Effect)⟩ = saveState s := NodeM.writes_of_persist _ _
      simp only [hrun] at ht
      split at ht <;> cases ht <;>
        exact ⟨h', _, hpromise _ rfl hws rfl rfl fun _ _ _ => id⟩
  · cases ht
    exact ⟨_, _, .silent (.quiet hl hl.toUp) rfl rfl rfl fun _ _ _ => id⟩
  · rename_i targetId term round _
    obtain ⟨result, hrun⟩ := transferSelect_idle (n := p.node) targetId term round.results
    simp only [hrun] at ht
    rcases result with e | _ | ⟨selected, request⟩ <;> cases ht
    · exact ⟨_, _, (transferDone_quiet hl.toUp (i := i)).promised hr hp _⟩
    · exact ⟨_, _, (transferDone_quiet hl.toUp (i := i)).promised hr hp _⟩
    · refine ⟨_, _, .quiet hl hl.toUp, Or.inl rfl, fun _ _ _ => Or.inl, fun x hx => ?_,
        fun a ha => nomatch ha⟩
      obtain rfl := List.mem_singleton.mp hx
      trivial
  · cases ht

/-- It has at most one durable effect. -/
theorem finishRound_single {i : Nat} (ht : p.turn c v (.finishRound i) = some t) :
    t.writes.length ≤ 1 := by
  have hl := hr.live hp
  simp only [Process.turn, Process.finishRound] at ht
  split at ht
  · rcases replicateLogFinish_lawful hl with hrun | ⟨n', s, h', k, R, hrun, -⟩ <;>
      simp only [hrun] at ht <;> split at ht <;> cases ht <;>
      simp [Outcome.writes, saveState]
  · cases ht
    exact Nat.zero_le _
  · rename_i targetId term round _
    obtain ⟨result, hrun⟩ := transferSelect_idle (n := p.node) targetId term round.results
    simp only [hrun] at ht
    rcases result with e | _ | ⟨selected, request⟩ <;> cases ht <;> exact Nat.zero_le _
  · cases ht

theorem transferAnswer_promised {call i : Nat}
    (ht : p.turn c v (.transferAnswer call i) = some t) :
    ∃ h' p', Promised c g v (.transferAnswer call i) p t (fun _ => False) h' p' := by
  have hl := hr.live hp
  simp only [Process.turn] at ht
  obtain ⟨answer, -, ht⟩ := Option.bind_eq_some_iff.mp ht
  unfold Process.transferAnswer at ht
  split at ht
  · rename_i term rpc response _ _
    split at ht
    · cases ht
    obtain ⟨result, n', s, ws, hrun, hstate, hla⟩ := transferResponse_lawful hl term response
    simp only [hrun] at ht
    cases ht
    have hidle : Idle c.members v (withState (g.peer v) s) g.history n'
        { n' with leadershipTransferInProgress := false } := ⟨rfl, hla.up.table⟩
    exact ⟨g.history, withState (g.peer v) s, .silent
      { hla with up := hla.up.idle hidle } rfl rfl rfl fun _ _ _ => id⟩
  · cases ht

/-- **Every turn keeps its promises.** -/
theorem turn_promised (ht : p.turn c v op = some t) :
    ∃ h' p', Promised c g v op p t (Lost c g.history (g.peer v) op) h' p' := by
  have hu := hr.up v p hp
  rcases op with timeout | i | ⟨i, timeout⟩ | _ | f | ⟨f, i⟩ | f | commands | _ | _ | id | id |
    ⟨id, f⟩ | ⟨id, f⟩ | id | id | key | id | ⟨id, f⟩ | id | id | targetId | ⟨id, i⟩ | id
  · exact tick_promised hr hp ht
  · exact voteAnswer_promised hr hp ht
  · simp only [Process.turn] at ht
    split at ht
    · rename_i rpc hrpc
      split at ht
      · rename_i hto
        cases ht
        exact deliver_promised hr hp hrpc hto.1
      · cases ht
    · cases ht
  · exact createSnapshot_promised hr hp ht
  · exact workerBuild_promised hr hp ht
  · exact workerAnswer_promised hr hp ht
  · exact ⟨_, _, (workerFail_quiet hu ht).promised hr hp _⟩
  · exact submitCommands_promised hr hp ht
  · cases ht
    exact ⟨_, _, Quiet.promised hr hp ⟨.refl hu, rfl, rfl, rfl, fun _ _ _ => id⟩ _⟩
  · cases ht
    exact ⟨_, _, Quiet.promised hr hp ⟨.refl hu, rfl, rfl, rfl, fun _ _ _ => id⟩ _⟩
  · exact ⟨_, _, (lockReplication_quiet hu ht).promised hr hp _⟩
  · exact ⟨_, _, (beginRound_quiet hu ht).promised hr hp _⟩
  · exact ⟨_, _, (submitTask_quiet hu ht).promised hr hp _⟩
  · exact ⟨_, _, (collectTask_quiet hu ht).promised hr hp _⟩
  · exact finishRound_promised hr hp ht
  · exact ⟨_, _, (submitResults_quiet hu ht).promised hr hp _⟩
  · obtain ⟨result, hrun⟩ := getStart_idle hu key c.now
    simp only [Process.turn, hrun] at ht
    split at ht <;> cases ht <;>
      exact ⟨_, _, Quiet.promised hr hp ⟨.refl hu, rfl, rfl, rfl, fun _ _ _ h => h⟩ _⟩
  · exact ⟨_, _, (confirmStart_quiet hu ht).promised hr hp _⟩
  · exact ⟨_, _, (confirmPoll_quiet hu ht).promised hr hp _⟩
  · exact ⟨_, _, (confirmFinish_quiet hu ht).promised hr hp _⟩
  · simp only [Process.turn] at ht
    split at ht
    · rename_i key _ _ _
      obtain ⟨result, hrun⟩ := getFinish_idle (n := p.node) key c.now
      simp only [hrun] at ht
      cases ht
      exact ⟨_, _, Quiet.promised hr hp ⟨.refl hu, rfl, rfl, rfl, fun _ _ _ h => h⟩ _⟩
    · cases ht
  · cases ht
    exact ⟨_, _, Quiet.promised hr hp ⟨.refl hu, rfl, rfl, rfl, fun _ _ _ => id⟩ _⟩
  · exact transferAnswer_promised hr hp ht
  · simp only [Process.turn] at ht
    split at ht <;> cases ht
    exact ⟨_, _, (transferDone_quiet hu).promised hr hp _⟩

end Turns

end PyRaftKv
