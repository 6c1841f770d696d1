/-
# Reads behind the quorum barrier

A `linearizable_get` that finds no valid lease asks the followers, in requests sent after it was
called, whether they still follow the leader.  A quorum that does was not in a later term, so every
leader whose writes were acknowledged before the call is of the reader's term or of an earlier one
(`Cluster.Reachable.reading`).

That is not enough to have their entries APPLIED: a leader that was only just elected has them in
its log and does not know that they are committed (`read_misses_write`).  Once it has committed an
entry of its own term, or all of its log, it has applied them all (`read_linearizable`).
-/
import PyRaftKv.Guarantees.Nodes
import PyRaftKv.Guarantees.Writes

open Consensus

namespace PyRaftKv

open Cluster

/-! ## 1. What a barrier counts -/

/-- The answer to an AppendEntries or an InstallSnapshot that was accepted. -/
def Response.accepted : Response → Bool
  | .appendEntries a => a.success
  | .installSnapshot a => a.success
  | _ => false

/-- Follower `f` accepted a request at position `firstRpc` or later, in a term up to `t`. -/
def Confirms (c : Cluster) (firstRpc : Nat) (t : Int) (f : NodeId) : Prop :=
  ∃ x ∈ c.answers, firstRpc ≤ x.rpc ∧ x.response.accepted = true ∧ x.response.term ≤ t ∧
    ∃ rpc, c.rpcs[x.rpc]? = some rpc ∧ rpc.target = f

/-- A barrier of member `v`, in process `p` and not beyond term `t`, counts each follower once, and
only those that have answered since it began. -/
structure Barrier.Counts (c : Cluster) (v : NodeId) (p : Process) (t : Int) (b : Barrier) :
    Prop where
  first : b.firstRpc ≤ c.rpcs.length
  followers : ∀ f ∈ b.followers, f ∈ c.members.others v
  nodup : b.confirmed.Nodup
  confirmed : ∀ f ∈ b.confirmed, f ∈ b.followers ∧ Confirms c b.firstRpc t f
  waiting : ∀ f task rpc request, b.fresh f = some task →
    p.futures f = some ⟨task, .waiting rpc request⟩ → b.firstRpc ≤ rpc
  finished : ∀ f task, b.fresh f = some task →
    p.futures f = some ⟨task, .finished (.ok true)⟩ → Confirms c b.firstRpc t f

/-- Whoever elected the leader of an acknowledged write answers requests from `firstRpc` on in the
term of that write or a later one. -/
def AnswersLater (c : Cluster) (h : Hist) (acked : List Acknowledgement) (firstRpc : Nat) : Prop :=
  ∀ a ∈ acked, ∃ e ∈ h.elections, e.term = a.term ∧ ∀ x ∈ c.answers, firstRpc ≤ x.rpc →
    ∀ rpc, c.rpcs[x.rpc]? = some rpc → rpc.target ∈ e.quorum → a.term ≤ x.response.term

/-- What holds of a read that is under way. -/
def Call.Reading (c : Cluster) (g : Grp) (v : NodeId) (p : Process) : Call → Prop
  | .confirming _ acked b =>
    b.Counts c v p (g.peer v).term ∧ AnswersLater c g.history acked b.firstRpc
  | .finishRead _ acked _ => ∀ a ∈ acked, a.term ≤ (g.peer v).term
  | _ => True

theorem Call.reading_trivial {c : Cluster} {g : Grp} {v : NodeId} {p : Process} {call : Call}
    (h : call.reading = false) : call.Reading c g v p := by
  cases call <;> trivial

/-! ## 2. What a step keeps -/

section Step

variable {c c' : Cluster} {g g' : Grp} {a : Action} {v : NodeId} {p : Process}

/-- **The network only grows**, by answers that carry the term of the member that gave them; one
that accepts a request is a contact of that member. -/
theorem Moved.network (hmv : Moved c g a c' g') : c.rpcs <+: c'.rpcs ∧ c.answers <+: c'.answers ∧
    ∀ x ∈ c'.answers, x ∈ c.answers ∨ ∃ rpc, c.rpcs[x.rpc]? = some rpc ∧
      x.response.term = (g'.peer rpc.target).term ∧
      (x.response.accepted = true → c'.contact rpc.target = some c.now) := by
  cases hmv with
  | elapse ms => exact ⟨List.prefix_refl _, List.prefix_refl _, fun _ hx => Or.inl hx⟩
  | start => exact ⟨List.prefix_refl _, List.prefix_refl _, fun _ hx => Or.inl hx⟩
  | fall => exact ⟨List.prefix_refl _, List.prefix_refl _, fun _ hx => Or.inl hx⟩
  | @run v op p t _ _ hp ht hpr =>
    refine ⟨List.prefix_append _ _, List.prefix_append _ _, fun x hx => ?_⟩
    refine (List.mem_append.mp hx).imp_right fun hx => ?_
    have hanswer := Option.mem_toList.mp hx
    obtain ⟨rpc, hrpc, htarget, -, -, hterm⟩ := hpr.answer x hanswer
    refine ⟨rpc, hrpc, by rw [htarget, Group.act_peer_self, hterm], fun haccepted => ?_⟩
    have hturn : Turn.accepted t = true := by
      unfold Turn.accepted
      rw [hanswer]
      rcases x with ⟨i, a | a | a | a⟩ <;> first | cases haccepted | exact haccepted
    change (if Turn.accepted t then Function.update c.contact v (some c.now) else c.contact) _ = _
    rw [if_pos hturn, htarget, Function.update_self]

theorem Confirms.mono {first : Nat} {t t' : Int} {f : NodeId} (hr : c.rpcs <+: c'.rpcs)
    (ha : c.answers <+: c'.answers) (ht : t ≤ t') (h : Confirms c first t f) :
    Confirms c' first t' f := by
  obtain ⟨x, hx, hfirst, haccepted, hterm, rpc, hrpc, hf⟩ := h
  exact ⟨x, ha.subset hx, hfirst, haccepted, hterm.trans ht, rpc, getElem?_mono hr hrpc, hf⟩

theorem AnswersLater.step (hr : Refines c g) (hmv : Moved c g a c' g')
    {acked : List Acknowledgement} {first : Nat} (h : AnswersLater c g.history acked first) :
    AnswersLater c' g'.history acked first := by
  obtain ⟨hrpcs, -, hnew⟩ := hmv.network
  have hr' := hmv.refines hr
  intro x hx
  obtain ⟨e, he, het, hlater⟩ := h x hx
  have he' := (hmv.longer hr).elections.subset he
  refine ⟨e, he', het, fun y hy hfirst rpc hrpc hin => ?_⟩
  rcases hnew y hy with hold | ⟨rpc', hrpc', hterm, -⟩
  · obtain ⟨rpc', hrpc', -⟩ := hr.answers y hold
    obtain rfl : rpc = rpc' :=
      Option.some.inj (hrpc.symm.trans (getElem?_mono hrpcs hrpc'))
    exact hlater y hold hfirst rpc hrpc' hin
  · -- a new answer carries the term of a voter, who has been in the term of the election
    obtain rfl : rpc = rpc' :=
      Option.some.inj (hrpc.symm.trans (getElem?_mono hrpcs hrpc'))
    rw [hterm, ← het]
    exact ((hr'.sound.peer rpc.target).voter_term hr'.sound.history he' hin).1

/-- A barrier whose process does not move. -/
theorem Barrier.Counts.still {b : Barrier} (hmv : Moved c g a c' g')
    (h : b.Counts c v p (g.peer v).term) : b.Counts c' v p (g'.peer v).term := by
  obtain ⟨hrpcs, hanswers, -⟩ := hmv.network
  have hterm := hmv.term_le v
  refine ⟨h.first.trans hrpcs.length_le, ?_, h.nodup, fun f hf => ?_, h.waiting,
    fun f task hfresh hdone => (h.finished f task hfresh hdone).mono hrpcs hanswers hterm⟩
  · rw [hmv.members]
    exact h.followers
  · exact ⟨(h.confirmed f hf).1, (h.confirmed f hf).2.mono hrpcs hanswers hterm⟩

/-- **An answer of success** to a request of the member's present term. -/
theorem Refines.succeeds (hr : Refines c g) (hp : c.process v = some p) {f : NodeId} {rpc : Nat}
    {request : ReplicationRequest} {response : Response} {term : Int}
    (hwait : p.Waits f rpc request) (hmem : ⟨rpc, response⟩ ∈ c.answers)
    (hread : Process.replicationAnswer response = some (term, true))
    (hterm : request.term = p.node.state.currentTerm) :
    response.accepted = true ∧ response.term = (g.peer v).term ∧
      ∃ x, c.rpcs[rpc]? = some x ∧ x.target = f := by
  have hrpc := hr.waiting v p f rpc request hp hwait
  obtain ⟨x, hx, hans, -⟩ := hr.answers _ hmem
  obtain rfl : x = ⟨v, f, request.toRequest⟩ := Option.some.inj (hx.symm.trans hrpc)
  rw [(hr.up v p hp).mirrors.term, ← hterm]
  -- the answer is of the kind of the request, and has its term
  rcases request with r | r <;> rcases response with s | s | s | s
  all_goals first
    | exact hans.elim
    | have hsuccess := (Prod.mk.inj (Option.some.inj hread)).2
      exact ⟨hsuccess, (hans hsuccess).1, _, hrpc, rfl⟩

/-- A barrier whose process has made a turn that did not concern it. -/
theorem Barrier.Counts.turn {op : Op} {t : Turn} {b : Barrier} (hr : Refines c g)
    (hp : c.process v = some p) (hmv : Moved c g a (c.finish v op t) g')
    (hsh : FuturesShift c p t.process.futures) (h : b.Counts c v p (g.peer v).term) :
    b.Counts (c.finish v op t) v t.process (g'.peer v).term := by
  obtain ⟨hrpcs, hanswers, -⟩ := hmv.network
  have hterm := hmv.term_le v
  have hstill := h.still hmv
  refine ⟨hstill.first, hstill.followers, hstill.nodup, hstill.confirmed, ?_, ?_⟩
  · intro f task rpc request hfresh hwait
    rcases hsh f _ hwait with hold | ⟨hqueued, -⟩ | ⟨state, hold, hnext⟩
    · exact h.waiting f task rpc request hfresh hold
    · cases hqueued
    · -- the worker has just sent the request
      cases hnext with
      | build => exact h.first
  · intro f task hfresh hdone
    rcases hsh f _ hdone with hold | ⟨hqueued, -⟩ | ⟨state, hold, hnext⟩
    · exact (h.finished f task hfresh hold).mono hrpcs hanswers hterm
    · cases hqueued
    · cases hnext with
      | succeed hmem hread hrequest =>
        obtain ⟨haccepted, heq, hrpc⟩ := hr.succeeds hp ⟨_, hold⟩ hmem hread hrequest
        exact Confirms.mono hrpcs hanswers hterm
          ⟨_, hmem, h.waiting f task _ _ hfresh hold, haccepted, heq.le, hrpc⟩

/-- **A barrier that goes on** with one follower still counts right. -/
theorem Barrier.Counts.next {op : Op} {t : Turn} {b b' : Barrier} {f : NodeId} (hr : Refines c g)
    (hp : c.process v = some p) (hmv : Moved c g a (c.finish v op t) g')
    (hsh : FuturesShift c p t.process.futures) (h : b.Counts c v p (g.peer v).term)
    (hnext : Barrier.Next p t.process b f b') :
    b'.firstRpc = b.firstRpc ∧ b'.Counts (c.finish v op t) v t.process (g'.peer v).term := by
  obtain ⟨hrpcs, hanswers, -⟩ := hmv.network
  have hturn := h.turn hr hp hmv hsh
  cases hnext with
  | fresh hnew =>
    refine ⟨rfl, hturn.first, hturn.followers, hturn.nodup, hturn.confirmed, ?_, ?_⟩
    · intro f' task rpc request hfresh hwait
      by_cases hf : f' = f
      · subst hf
        rw [hnew] at hwait
        cases hwait
      · exact hturn.waiting f' task rpc request ((Function.update_of_ne hf _ _).symm.trans hfresh)
          hwait
    · intro f' task hfresh hdone
      by_cases hf : f' = f
      · subst hf
        rw [hnew] at hdone
        cases hdone
      · exact hturn.finished f' task ((Function.update_of_ne hf _ _).symm.trans hfresh) hdone
  | confirmed hf hnot hfresh hdone =>
    refine ⟨rfl, hturn.first, hturn.followers, List.nodup_cons.mpr ⟨hnot, hturn.nodup⟩, ?_,
      hturn.waiting, hturn.finished⟩
    intro f' hf'
    rcases List.mem_cons.mp hf' with rfl | hf'
    · exact ⟨hf, (h.finished _ _ hfresh hdone).mono hrpcs hanswers (hmv.term_le v)⟩
    · exact hturn.confirmed f' hf'
  | failed =>
    exact ⟨rfl, hturn.first, hturn.followers, hturn.nodup, hturn.confirmed, hturn.waiting,
      hturn.finished⟩

/-- **A barrier that begins.** -/
theorem Refines.barrier (hr : Refines c g) (hp : c.process v = some p) {readTerm : Int}
    {followers : List NodeId}
    (hrun : (RaftNode.confirmStart p.node).result = .ok (readTerm, followers)) (now : Nat)
    {acked : List Acknowledgement} (hacked : ∀ x ∈ acked, Vouched g x) :
    Barrier.Counts c v p (g.peer v).term
        { readTerm, followers, startedAt := now, firstRpc := c.rpcs.length } ∧
      AnswersLater c g.history acked c.rpcs.length := by
  refine ⟨⟨le_rfl, ?_, List.nodup_nil, ?_, ?_, ?_⟩, fun x hx => ?_⟩
  · rcases confirmStart_cases (hr.up v p hp) with ⟨message, herr⟩ | ⟨-, hok⟩
    · rw [herr] at hrun
      cases hrun
    · rw [hok] at hrun
      cases hrun
      exact fun f hf => hf
  · exact fun f hf => absurd hf List.not_mem_nil
  · exact fun f task rpc request hfresh => nomatch hfresh
  · exact fun f task hfresh => nomatch hfresh
  · obtain ⟨e, he, het, -⟩ := (hacked x hx).elected
    refine ⟨e, he, het, fun y hy hfirst => ?_⟩
    -- every answer so far is to a request sent before
    obtain ⟨rpc, hrpc, -⟩ := hr.answers y hy
    have := (List.getElem?_eq_some_iff.mp hrpc).1
    omega

/-- The reader and those that confirmed it. -/
theorem Barrier.Counts.isQuorum {b : Barrier} {t : Int} (hr : Refines c g)
    (hp : c.process v = some p) (h : b.Counts c v p t)
    (hsize : c.members.quorumSize ≤ 1 + b.confirmed.length) :
    c.members.quorums.isQuorum {u | u ∈ v :: b.confirmed} := by
  have hmember : ∀ u ∈ v :: b.confirmed, u ∈ c.members := by
    intro u hu
    rcases List.mem_cons.mp hu with rfl | hu
    · exact (hr.up u p hp).member
    · exact (Members.mem_others.mp (h.followers u (h.confirmed u hu).1)).1
  have hnodup : (v :: b.confirmed).Nodup := List.nodup_cons.mpr
    ⟨fun hv => (Members.mem_others.mp (h.followers v (h.confirmed v hv).1)).2 rfl, h.nodup⟩
  exact Members.isQuorum hnodup hmember (by rw [List.length_cons]; omega)

/-- **A quorum that was asked after the call** was not in a term beyond the reader's. -/
theorem Barrier.Counts.quorum {b : Barrier} (hr : Refines c g) (hp : c.process v = some p)
    (h : b.Counts c v p (g.peer v).term) {acked : List Acknowledgement}
    (hlater : AnswersLater c g.history acked b.firstRpc)
    (hsize : c.members.quorumSize ≤ 1 + b.confirmed.length) :
    ∀ x ∈ acked, x.term ≤ (g.peer v).term := by
  intro x hx
  obtain ⟨e, he, het, hans⟩ := hlater x hx
  obtain ⟨es, hes⟩ := suffix_of_mem he
  obtain ⟨u, hu, hue⟩ := c.members.quorums.meet (h.isQuorum hr hp hsize)
    (hr.sound.history.election_quorum e es hes).1
  rcases List.mem_cons.mp hu with rfl | hu
  · -- the reader itself elected that leader
    rw [← het]
    exact ((hr.sound.peer u).voter_term hr.sound.history he hue).1
  · obtain ⟨-, y, hy, hfirst, -, hterm, rpc, hrpc, htarget⟩ := h.confirmed u hu
    exact (hans y hy hfirst rpc hrpc (htarget ▸ hue)).trans hterm

/-- What `_confirm_read_quorum` has checked when it returns. -/
theorem confirmFinish_ok {n : RaftNode} {readTerm : Int} {confirmed : List NodeId} {now : Nat}
    (hrun : (RaftNode.confirmFinish readTerm confirmed now n).result = .ok ()) :
    n.members.quorumSize ≤ 1 + confirmed.length := by
  simp only [RaftNode.confirmFinish, NodeM.bind_run, NodeM.get_run, NodeM.andThen_ok,
    NodeM.behind_nil, NodeM.ite_run, NodeM.raise_run] at hrun
  split at hrun
  · cases hrun
  split at hrun
  · cases hrun
  · rename_i hsize
    exact not_lt.mp hsize

theorem Moved.reading (hr : Refines c g) (hs : AllVouched c g)
    (hread : c.AllCalls (Call.Reading c g)) (hmv : Moved c g a c' g') :
    c'.AllCalls (Call.Reading c' g') := by
  have hterms : ∀ {u : NodeId} {xs : List Acknowledgement}, (∀ x ∈ xs, x.term ≤ (g.peer u).term) →
      ∀ x ∈ xs, x.term ≤ (g'.peer u).term :=
    fun h x hx => (h x hx).trans (hmv.term_le _)
  have hboth : c.AllCalls fun u p call =>
      Call.Reading c g u p call ∧ ∀ x ∈ call.acked, Vouched g x :=
    fun u p i call hp hcall => ⟨hread u p i call hp hcall, hs.acked u p i call hp hcall⟩
  refine hmv.allCalls hboth ?_ ?_
  · rintro u q call hq ⟨h, -⟩
    cases call with
    | confirming key acked b => exact ⟨h.1.still hmv, h.2.step hr hmv⟩
    | finishRead key acked readTerm => exact hterms h
    | _ => trivial
  · rintro u q op t hq ht rfl hsh call
    refine ⟨?_, fun hbegun => ?_, ?_⟩
    · rintro ⟨h, -⟩
      cases call with
      | confirming key acked b => exact ⟨h.1.turn hr hq hmv hsh.futures, h.2.step hr hmv⟩
      | finishRead key acked readTerm => exact hterms h
      | _ => trivial
    · cases hbegun <;> trivial
    · rintro old ⟨h, hacked⟩ hnext
      cases hnext with
      | shift _ _ hreading => exact Call.reading_trivial hreading
      | answer => trivial
      | barrier hrun =>
        obtain ⟨hcounts, hlater⟩ := hr.barrier hq hrun c.now hacked
        exact ⟨hcounts.turn hr hq hmv hsh.futures, hlater.step hr hmv⟩
      | poll hb =>
        obtain ⟨hfirst, hcounts⟩ := h.1.next hr hq hmv hsh.futures hb
        refine ⟨hcounts, ?_⟩
        rw [hfirst]
        exact h.2.step hr hmv
      | confirm hrun =>
        have hsize := confirmFinish_ok hrun
        rw [(hr.up u q hq).members] at hsize
        exact hterms (h.1.quorum hr hq h.2 hsize)

end Step

/-- **In every reachable state** a read that has passed its barrier was called after writes of the
reader's term and of earlier terms only. -/
theorem Cluster.Reachable.reading {m : Members} {c : Cluster} (hc : Reachable m c) :
    ∃ g, Refines c g ∧ AllVouched c g ∧ c.AllCalls (Call.Reading c g) := by
  obtain ⟨g, hr, hs, hread⟩ := Leads.invariant
    (I := fun c g => AllVouched c g ∧ c.AllCalls (Call.Reading c g))
    (fun hr hi hmv => ⟨hmv.vouched hr hi.1, hmv.reading hr hi.1 hi.2⟩) (initial_refines m)
    ⟨⟨(fun _ hx => nomatch hx), (fun _ _ _ _ hp => nomatch hp), (fun _ _ _ _ hp => nomatch hp)⟩,
      (fun _ _ _ _ hp => nomatch hp)⟩ hc
  exact ⟨g, hr, hs, hread⟩

/-! ## 3. What a read has seen -/

/-- A read that has passed its barrier is about to return `value`, from the store of process `p`;
`acked` are the writes acknowledged before it was called. -/
def Returns (c : Cluster) (p : Process) (acked : List Acknowledgement) (value : Option String) :
    Prop :=
  ∃ id key readTerm, p.calls id = some (.finishRead key acked readTerm) ∧
    (RaftNode.getFinish key c.now p.node).result = .ok value

/-- The leader has committed an entry of its own term, or all of its log. -/
def CommitsOwnTerm (n : RaftNode) : Prop :=
  n.log.termAt n.state.commitIndex = some n.state.currentTerm ∨
    n.state.commitIndex = n.log.lastIndex

instance (n : RaftNode) : Decidable (CommitsOwnTerm n) :=
  inferInstanceAs (Decidable (_ ∨ _))

theorem getFinish_ok {n : RaftNode} {key : String} {now : Nat} {value : Option String}
    (hrun : (RaftNode.getFinish key now n).result = .ok value) : n.state.role = .leader := by
  simp only [RaftNode.getFinish, NodeM.bind_run, NodeM.get_run, NodeM.andThen_ok,
    NodeM.behind_nil, NodeM.ite_run, NodeM.raise_run] at hrun
  split at hrun
  · cases hrun
  · rename_i hlease
    unfold RaftNode.hasValidReadLease at hlease
    simp only [Bool.not_eq_true', Bool.not_eq_false, Bool.and_eq_true, decide_eq_true_eq]
      at hlease
    exact hlease.1.1

section Committed

variable {c : Cluster} {g : Grp} {v : NodeId} {p : Process}

/-- **What a leader of an earlier term had committed**, a leader that has committed an entry of its
own term has applied. -/
theorem Refines.applied_earlier (hr : Refines c g) (hp : c.process v = some p)
    (hlead : p.node.state.role = .leader) (hown : CommitsOwnTerm p.node) {t : Int}
    (ht : t < p.node.state.currentTerm) {l : List LogEntry} (hl : g.history.DecidedBy t l) :
    l.length ≤ (g.peer v).commit := by
  have hm := (hr.up v p hp).mirrors
  have hs := hr.sound.history
  obtain ⟨e, he, het, -, hlog⟩ := hr.led hp hlead
  have hheld : l <+: (g.peer v).log := by
    rw [hlog]
    exact hs.decidedBy_held hl ⟨e, he, het⟩ ht.le
  rcases hown with hterm | hall
  · by_contra hlt
    rw [hm.commit] at hterm
    obtain ⟨k, hk, -, hkl, hstamp⟩ := hm.log.termAt_eq_some.mp hterm
    obtain rfl : (g.peer v).commit = k := by omega
    -- the entry at the commit index is of the leader's term, and below the end of `l`
    rcases hcommit : (g.peer v).commit with _ | k
    · rw [hcommit] at hstamp
      have hpos := hs.elected_pos ⟨e, he, het⟩
      have hzero : lastStamp ((g.peer v).log.take 0) = 0 := rfl
      omega
    · have hkl' : k < l.length := by omega
      obtain ⟨x, hx⟩ : ∃ x, l[k]? = some x := ⟨_, List.getElem?_eq_getElem hkl'⟩
      have hxlog : (g.peer v).log[k]? = some x := by
        rw [getElem?_of_isPrefix hheld hkl', hx]
      have hxt : x.term = p.node.state.currentTerm := by
        rw [hcommit, List.take_add_one, hxlog] at hstamp
        simpa [lastStamp, stamp] using hstamp.symm
      rcases hl with rfl | ⟨d, hd, hdt, hld⟩
      · cases hx
      · have hxd := hs.leader_stamps (hs.decision_elected hd).1 x
          (List.mem_of_mem_take (hld.subset (List.mem_of_getElem? hx)))
        have : x.term ≤ d.term := hxd
        omega
  · have hlen := hheld.length_le
    rw [hm.commit, hm.log.lastIndex] at hall
    omega

end Committed

/-- **Reads behind the barrier are linearizable** on a leader that has committed an entry of its own
term, or all of its log: whatever was acknowledged before the read was called, whoever acknowledged
it, the value comes from a store in which it is applied. -/
theorem read_linearizable {m : Members} {c : Cluster} (hc : Reachable m c) {v : NodeId}
    {p : Process} {acked : List Acknowledgement} {value : Option String}
    (hp : c.process v = some p) (hread : Returns c p acked value)
    (hown : CommitsOwnTerm p.node) :
    ∀ a ∈ acked, a.entry.index ≤ p.node.state.lastApplied := by
  intro a ha
  obtain ⟨g, hr, hs, hreading⟩ := hc.reading
  obtain ⟨id, key, readTerm, hcall, hrun⟩ := hread
  have hlead := getFinish_ok hrun
  have hm := (hr.up v p hp).mirrors
  have hterm : a.term ≤ (g.peer v).term := hreading v p id _ hp hcall a ha
  have hvouched : Vouched g a := hs.acked v p id _ hp hcall a ha
  rw [hm.applied]
  rcases hterm.lt_or_eq with hlt | heq
  · obtain ⟨l, hl, hlen⟩ := hvouched.decided
    have := hr.applied_earlier hp hlead hown (hm.term ▸ hlt) hl
    omega
  · -- acknowledged in the reader's own term, so by the reader
    obtain ⟨e, he, het, hea⟩ := hvouched.elected
    obtain ⟨e', he', het', hev, -⟩ := hr.led hp hlead
    obtain rfl := hr.sound.history.election_unique e he e' he' (by rw [het, het', heq, hm.term])
    have hknown := hvouched.known
    rwa [hea.symm.trans hev] at hknown

/-! ## 4. A read that sees a write, and one that misses it -/

/-- What call `id` of `v` is about to return, with the writes acknowledged before it. -/
def readOf (c : Cluster) (v : NodeId) (id : Nat) :
    Option (RaftNode × List Acknowledgement × Option (Option String)) :=
  (c.process v).bind fun p =>
    match p.calls id with
    | some (.finishRead key acked _) =>
      some (p.node, acked, (RaftNode.getFinish key c.now p.node).result.toOption)
    | _ => none

theorem Returns.of_readOf {α : Type} {f : RaftNode → α} {c : Cluster} {v : NodeId} {id : Nat}
    {x : α} {acked : List Acknowledgement} {value : Option String}
    (h : (readOf c v id).map (fun r => (f r.1, r.2)) = some (x, acked, some value)) :
    ∃ p, c.process v = some p ∧ f p.node = x ∧ Returns c p acked value := by
  obtain ⟨⟨n, acked', result⟩, hread, heq⟩ := Option.map_eq_some_iff.mp h
  obtain ⟨p, hp, hread⟩ := Option.bind_eq_some_iff.mp hread
  split at hread
  · rename_i key acked'' readTerm hcall
    cases hread
    obtain ⟨hx, hrest⟩ := Prod.mk.inj heq
    obtain ⟨rfl, hres⟩ := Prod.mk.inj hrest
    refine ⟨p, hp, hx, id, key, readTerm, hcall, ?_⟩
    rcases hrun : (RaftNode.getFinish key c.now p.node).result with e | value'
    · rw [hrun] at hres
      cases hres
    · rw [hrun] at hres
      exact congrArg Except.ok (Option.some.inj hres)
  · cases hread

/-- The leader of term 1 acknowledges its write. -/
def acknowledgeWrite : List Action := [
  .run "a" (.submitResults 0),
  .run "a" (.lockReplication 0),
  .run "a" (.beginRound 0),
  .run "a" (.finishRound 0)]

theorem acknowledgeWrite_runs : (afterFirstWrite.runs acknowledgeWrite).isSome = true := by
  decide +kernel

def afterAcknowledge : Cluster := (afterFirstWrite.runs acknowledgeWrite).get acknowledgeWrite_runs

theorem afterAcknowledge_reachable : Reachable threeMembers afterAcknowledge :=
  afterFirstWrite_reachable.trans (runs_leads (Option.some_get acknowledgeWrite_runs).symm)

/-- It is asked to read, and the follower that has the write confirms. -/
def firstRead : List Action := [
  .run "a" (.linearizableGet "x"),
  .run "a" (.confirmStart 2),
  .run "a" (.confirmPoll 2 "b"),
  .run "a" (.workerBuild "b"),
  .run "b" (.deliver 3 3000),
  .run "a" (.workerAnswer "b" 2),
  .run "a" (.confirmPoll 2 "b"),
  .run "a" (.confirmFinish 2)]

theorem firstRead_runs : (afterAcknowledge.runs firstRead).isSome = true := by decide +kernel

/-- The write is applied where it is read. -/
theorem read_linearizable_firstRead : ∃ c p acked, Reachable threeMembers c ∧
    c.process "a" = some p ∧ Returns c p acked (some "1") ∧ acked ≠ [] ∧
    ∀ a ∈ acked, a.entry.index ≤ p.node.state.lastApplied := by
  have hread : (readOf ((afterAcknowledge.runs firstRead).get firstRead_runs) "a" 2).map
      (fun r => (decide (CommitsOwnTerm r.1), r.2)) =
        some (true, [⟨"a", 1, firstEntry⟩], some (some "1")) := by decide +kernel
  obtain ⟨p, hp, hown, hret⟩ := Returns.of_readOf (f := fun n => decide (CommitsOwnTerm n)) hread
  have hreach : Reachable threeMembers ((afterAcknowledge.runs firstRead).get firstRead_runs) :=
    afterAcknowledge_reachable.trans (runs_leads (Option.some_get firstRead_runs).symm)
  exact ⟨_, p, _, hreach, hp, hret, List.cons_ne_nil _ _,
    read_linearizable hreach hp hret (of_decide_eq_true hown)⟩

/-- The member that copied the write is elected and asked to read; the other follower takes the
entries it lacks, and confirms. -/
def secondRead : List Action := [
  .elapse 3000,
  .run "b" (.tick 3000),
  .run "c" (.deliver 4 3000),
  .run "b" (.voteAnswer 2),
  .run "b" (.linearizableGet "x"),
  .run "b" (.confirmStart 0),
  .run "b" (.confirmPoll 0 "c"),
  .run "b" (.workerBuild "c"),
  .run "c" (.deliver 5 3000),
  .run "b" (.workerAnswer "c" 3),
  .run "b" (.workerBuild "c"),
  .run "c" (.deliver 6 3000),
  .run "b" (.workerAnswer "c" 4),
  .run "b" (.confirmPoll 0 "c"),
  .run "b" (.confirmFinish 0)]

theorem secondRead_runs : (afterAcknowledge.runs secondRead).isSome = true := by decide +kernel

/-- **A newly elected leader reads past an acknowledged write.**  It has confirmed that it leads,
and returns no value for a key that was written before the read was called. -/
theorem read_misses_write : ∃ c p acked, Reachable threeMembers c ∧ c.process "b" = some p ∧
    Returns c p acked none ∧ ∃ a ∈ acked, ¬ a.entry.index ≤ p.node.state.lastApplied := by
  have hread : (readOf ((afterAcknowledge.runs secondRead).get secondRead_runs) "b" 0).map
      (fun r => (r.1.state.lastApplied, r.2)) =
        some (0, [⟨"a", 1, firstEntry⟩], some none) := by decide +kernel
  obtain ⟨p, hp, happlied, hret⟩ := Returns.of_readOf (f := (·.state.lastApplied)) hread
  refine ⟨_, p, _, afterAcknowledge_reachable.trans
    (runs_leads (Option.some_get secondRead_runs).symm), hp, hret, _, List.mem_singleton_self _, ?_⟩
  rw [happlied]
  decide

end PyRaftKv
