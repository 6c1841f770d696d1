/-
# What a barrier has asked

`_confirm_read_quorum` shares the slots of `_replication_futures` with the background rounds.  A
task it finds there may have sent its request before the call, so the barrier takes its result away
and does not count it; it counts a follower when a task that it submitted itself has finished with
`True`.  Such a task has sent its request since the call began, and in the leader's present term
(`Barrier.Asked`).

The call looks at the leader's role and term at its beginning and at its end only.  That is enough:
a member that steps down leads again in a later term only (`Moved.led`).
-/
import PyRaftKv.Guarantees.Reads

open Consensus

namespace PyRaftKv

open Cluster

/-! ## 1. A call of `_confirm_read_quorum` -/

/-- The barrier that call `i` of member `v` is at. -/
def Cluster.barrier (c : Cluster) (v : NodeId) (i : Nat) : Option Barrier :=
  match (c.process v).bind fun p => p.calls i with
  | some (.confirming _ _ b) => some b
  | _ => none

/-- The call takes `_replication_lock` and finds that the member leads. -/
structure BarrierStarts (v : NodeId) (i : Nat) (c c' : Cluster) : Prop where
  step : c.step (.run v (.confirmStart i)) = some c'
  barrier : (c'.barrier v i).isSome

/-- Anything happens while the call goes on. -/
structure BarrierStep (v : NodeId) (i : Nat) (c c' : Cluster) : Prop where
  step : ∃ a, c.step a = some c'
  before : (c.barrier v i).isSome
  after : (c'.barrier v i).isSome

/-- The call returns normally. -/
structure BarrierReturns (v : NodeId) (i : Nat) (c c' : Cluster) : Prop where
  step : c.step (.run v (.confirmFinish i)) = some c'
  barrier : (c.barrier v i).isSome
  returned : ∃ p key acked readTerm, c'.process v = some p ∧
    p.calls i = some (.finishRead key acked readTerm)

/-- Member `v` leads in term `t`. -/
def Cluster.LeaderOf (c : Cluster) (v : NodeId) (t : Int) : Prop :=
  ∃ p, c.process v = some p ∧ p.node.state.role = .leader ∧ p.node.state.currentTerm = t

/-- In the step from `c` to `c'`, member `f` accepts an AppendEntries or an InstallSnapshot of term
`t` that `v` sent at position `first` of the network or later, and is in that term. -/
structure AcceptsFrom (v f : NodeId) (t : Int) (first : Nat) (c c' : Cluster) : Prop where
  turn : ∃ op, c.step (.run f op) = some c'
  accepted : ∃ x ∈ c'.answers, x ∉ c.answers ∧ x.response.accepted = true ∧ first ≤ x.rpc ∧
    ∃ request : ReplicationRequest, request.term = t ∧
      c.rpcs[x.rpc]? = some ⟨v, f, request.toRequest⟩
  term : ∃ q, c'.process f = some q ∧ q.node.state.currentTerm = t

theorem Cluster.barrier_eq_some {c : Cluster} {v : NodeId} {i : Nat} {b : Barrier} :
    c.barrier v i = some b ↔ ∃ p key acked, c.process v = some p ∧
      p.calls i = some (.confirming key acked b) := by
  unfold Cluster.barrier
  constructor
  · intro h
    split at h
    · rename_i key acked b' hcall
      cases h
      obtain ⟨p, hp, hcall⟩ := Option.bind_eq_some_iff.mp hcall
      exact ⟨p, key, acked, hp, hcall⟩
    · cases h
  · rintro ⟨p, key, acked, hp, hcall⟩
    rw [hp, Option.bind_some, hcall]

/-! ## 2. What is asked -/

/-- Follower `f` accepted a request of member `v` at position `first` or later, in a term of the
request's that is `low` or later, up to `high`. -/
def Vouches (c : Cluster) (v : NodeId) (first : Nat) (low high : Int) (f : NodeId) : Prop :=
  ∃ x ∈ c.answers, first ≤ x.rpc ∧ x.response.accepted = true ∧
    ∃ request : ReplicationRequest, c.rpcs[x.rpc]? = some ⟨v, f, request.toRequest⟩ ∧
      x.response.term = request.term ∧ low ≤ request.term ∧ request.term ≤ high

/-- **What a barrier has asked** in the term it reads in: every follower that a task of its own
finished with, or that it counts. -/
structure Barrier.Asked (c : Cluster) (g : Grp) (v : NodeId) (p : Process) (b : Barrier) :
    Prop where
  elected : ∃ e ∈ g.history.elections, e.term = b.readTerm ∧ e.leader = v
  reached : b.readTerm ≤ (g.peer v).term
  finished : ∀ f task, b.fresh f = some task →
    p.futures f = some ⟨task, .finished (.ok true)⟩ →
    Vouches c v b.firstRpc b.readTerm (g.peer v).term f
  confirmed : ∀ f ∈ b.confirmed, Vouches c v b.firstRpc b.readTerm (g.peer v).term f

def Call.Asked (c : Cluster) (g : Grp) (v : NodeId) (p : Process) : Call → Prop
  | .confirming _ _ b => b.Asked c g v p
  | _ => True

section Step

variable {c c' : Cluster} {g g' : Grp} {a : Action} {v : NodeId} {p : Process}

theorem Vouches.mono {first : Nat} {low high high' : Int} {f : NodeId} (hr : c.rpcs <+: c'.rpcs)
    (ha : c.answers <+: c'.answers) (hle : high ≤ high') (h : Vouches c v first low high f) :
    Vouches c' v first low high' f := by
  obtain ⟨x, hx, hfirst, haccepted, request, hrpc, hterm, hlow, hhigh⟩ := h
  exact ⟨x, ha.subset hx, hfirst, haccepted, request, getElem?_mono hr hrpc, hterm, hlow,
    hhigh.trans hle⟩

/-- A barrier whose process does not move. -/
theorem Barrier.Asked.still {b : Barrier} (hr : Refines c g) (hmv : Moved c g a c' g')
    (h : b.Asked c g v p) : b.Asked c' g' v p := by
  obtain ⟨hrpcs, hanswers, -⟩ := hmv.network
  have hterm := hmv.term_le v
  obtain ⟨e, he, hrest⟩ := h.elected
  exact ⟨⟨e, (hmv.longer hr).elections.subset he, hrest⟩, h.reached.trans hterm,
    fun f task hfresh hdone => (h.finished f task hfresh hdone).mono hrpcs hanswers hterm,
    fun f hf => (h.confirmed f hf).mono hrpcs hanswers hterm⟩

/-- A barrier whose process has made a turn that did not concern it. -/
theorem Barrier.Asked.turn {op : Op} {t : Turn} {b : Barrier} (hr : Refines c g)
    (hp : c.process v = some p) (hmv : Moved c g a (c.finish v op t) g')
    (hsh : FuturesShift c p t.process.futures) (hcounts : b.Counts c v p (g.peer v).term)
    (h : b.Asked c g v p) : b.Asked (c.finish v op t) g' v t.process := by
  obtain ⟨hrpcs, hanswers, -⟩ := hmv.network
  have hterm := hmv.term_le v
  have hstill := h.still hr hmv
  refine ⟨hstill.elected, hstill.reached, fun f task hfresh hdone => ?_, hstill.confirmed⟩
  rcases hsh f _ hdone with hold | ⟨hqueued, -⟩ | ⟨state, hold, hnext⟩
  · exact (h.finished f task hfresh hold).mono hrpcs hanswers hterm
  · cases hqueued
  · cases hnext with
    | succeed hmem hread hrequest =>
      -- the worker has read an answer to a request of the present term
      obtain ⟨haccepted, heq, -⟩ := hr.succeeds hp ⟨_, hold⟩ hmem hread hrequest
      have hpresent := (hr.up v p hp).mirrors.term.trans hrequest.symm
      exact Vouches.mono hrpcs hanswers hterm
        ⟨_, hmem, hcounts.waiting f task _ _ hfresh hold, haccepted, _,
          hr.waiting v p f _ _ hp ⟨_, hold⟩, heq.trans hpresent, h.reached.trans_eq hpresent,
          hpresent.ge⟩

/-- **A barrier that goes on** with one follower. -/
theorem Barrier.Asked.next {op : Op} {t : Turn} {b b' : Barrier} {f : NodeId} (hr : Refines c g)
    (hp : c.process v = some p) (hmv : Moved c g a (c.finish v op t) g')
    (hsh : FuturesShift c p t.process.futures) (hcounts : b.Counts c v p (g.peer v).term)
    (h : b.Asked c g v p) (hnext : Barrier.Next p t.process b f b') :
    b'.Asked (c.finish v op t) g' v t.process := by
  obtain ⟨hrpcs, hanswers, -⟩ := hmv.network
  have hturn := h.turn hr hp hmv hsh hcounts
  cases hnext with
  | fresh hnew =>
    refine ⟨hturn.elected, hturn.reached, fun f' task hfresh hdone => ?_, hturn.confirmed⟩
    by_cases hf : f' = f
    · subst hf
      rw [hnew] at hdone
      cases hdone
    · exact hturn.finished f' task ((Function.update_of_ne hf _ _).symm.trans hfresh) hdone
  | confirmed hf hnot hfresh hdone =>
    refine ⟨hturn.elected, hturn.reached, hturn.finished, fun f' hf' => ?_⟩
    rcases List.mem_cons.mp hf' with rfl | hf'
    · exact (h.finished _ _ hfresh hdone).mono hrpcs hanswers (hmv.term_le v)
    · exact hturn.confirmed f' hf'
  | failed => exact ⟨hturn.elected, hturn.reached, hturn.finished, hturn.confirmed⟩

/-- What `_confirm_read_quorum` has checked when its loop begins. -/
theorem Refines.confirmStart_ok (hr : Refines c g) (hp : c.process v = some p) {readTerm : Int}
    {followers : List NodeId}
    (hrun : (RaftNode.confirmStart p.node).result = .ok (readTerm, followers)) :
    p.node.state.role = .leader ∧ p.node.state.currentTerm = readTerm := by
  rcases confirmStart_cases (hr.up v p hp) with ⟨message, herr⟩ | ⟨hrole, hok⟩
  · rw [herr] at hrun
    cases hrun
  · rw [hok] at hrun
    cases hrun
    exact ⟨hrole, rfl⟩

/-- **A barrier that begins.** -/
theorem Refines.asked (hr : Refines c g) (hp : c.process v = some p) {readTerm : Int}
    {followers : List NodeId}
    (hrun : (RaftNode.confirmStart p.node).result = .ok (readTerm, followers)) (now first : Nat) :
    Barrier.Asked c g v p { readTerm, followers, startedAt := now, firstRpc := first } := by
  obtain ⟨hrole, hterm⟩ := hr.confirmStart_ok hp hrun
  have hm := (hr.up v p hp).mirrors
  obtain ⟨e, he, het, hev, -⟩ := (hr.sound.peer v).leader (by rw [hm.role, hrole]; rfl)
  refine ⟨⟨e, he, ?_, hev⟩, ?_, fun f task hfresh => ?_, fun f hf => absurd hf List.not_mem_nil⟩
  · exact het.trans (hm.term.trans hterm)
  · exact (hm.term.trans hterm).ge
  · cases hfresh

theorem Moved.asked (hr : Refines c g) (hread : c.AllCalls (Call.Reading c g))
    (hasked : c.AllCalls (Call.Asked c g)) (hmv : Moved c g a c' g') :
    c'.AllCalls (Call.Asked c' g') := by
  have hboth : c.AllCalls fun u p call => Call.Reading c g u p call ∧ Call.Asked c g u p call :=
    fun u p i call hp hcall => ⟨hread u p i call hp hcall, hasked u p i call hp hcall⟩
  refine hmv.allCalls hboth ?_ ?_
  · rintro u q call hq ⟨-, h⟩
    cases call with
    | confirming key acked b => exact h.still hr hmv
    | _ => trivial
  · rintro u q op t hq ht rfl hsh call
    refine ⟨?_, fun hbegun => ?_, ?_⟩
    · rintro ⟨hcounts, h⟩
      cases call with
      | confirming key acked b => exact h.turn hr hq hmv hsh.futures hcounts.1
      | _ => trivial
    · cases hbegun <;> trivial
    · rintro old ⟨hcounts, h⟩ hnext
      cases hnext with
      | @shift op old call' _ _ hreading _ =>
        cases call with
        | confirming key acked b => cases hreading
        | _ => trivial
      | answer => trivial
      | barrier hrun =>
        exact (hr.asked hq hrun c.now c.rpcs.length).turn hr hq hmv hsh.futures
          (hr.barrier hq hrun c.now (fun x hx => absurd hx List.not_mem_nil)).1
      | poll hb => exact h.next hr hq hmv hsh.futures hcounts.1 hb
      | confirm => trivial

end Step

/-- **In every reachable state** a barrier counts those that it has asked. -/
theorem Cluster.Reachable.asked {m : Members} {c : Cluster} (hc : Reachable m c) :
    ∃ g, Refines c g ∧ c.AllCalls (Call.Reading c g) ∧ c.AllCalls (Call.Asked c g) := by
  obtain ⟨g, hr, -, hread, hasked⟩ := Leads.invariant
    (I := fun c g => AllVouched c g ∧ c.AllCalls (Call.Reading c g) ∧ c.AllCalls (Call.Asked c g))
    (fun hr hi hmv => ⟨hmv.vouched hr hi.1, hmv.reading hr hi.1 hi.2.1,
      hmv.asked hr hi.2.1 hi.2.2⟩) (initial_refines m)
    ⟨⟨(fun _ hx => nomatch hx), (fun _ _ _ _ hp => nomatch hp), (fun _ _ _ _ hp => nomatch hp)⟩,
      (fun _ _ _ _ hp => nomatch hp), (fun _ _ _ _ hp => nomatch hp)⟩ hc
  exact ⟨g, hr, hread, hasked⟩

/-! ## 3. A run of the call -/

@[simp] theorem Process.calls_endCall (p : Process) (i : Nat) : (p.endCall i).calls i = none :=
  Function.update_self _ _ _

@[simp] theorem Process.calls_setCall (p : Process) (i : Nat) (call : Option Call) :
    (p.setCall i call).calls i = call := Function.update_self _ _ _

section Run

variable {c c' : Cluster} {g g' : Grp} {a : Action} {v : NodeId} {i : Nat} {t : Int}

theorem leaderOf_iff (hr : Refines c g) {p : Process} (hp : c.process v = some p) :
    c.LeaderOf v t ↔ (g.peer v).role = .leader ∧ (g.peer v).term = t := by
  have hm := (hr.up v p hp).mirrors
  rw [hm.role, hm.term, NodeRole.role_leader]
  constructor
  · rintro ⟨q, hq, hlead⟩
    obtain rfl : p = q := Option.some.inj (hp.symm.trans hq)
    exact hlead
  · exact fun hlead => ⟨p, hp, hlead⟩

/-- A peer that leads after a step, in a term that it was elected in before it, led before. -/
theorem Moved.led (hr : Refines c g) (hmv : Moved c g a c' g')
    (hel : ∃ e ∈ g.history.elections, e.term = (g.peer v).term ∧ e.leader = v)
    (hterm : (g'.peer v).term = (g.peer v).term) (hrole : (g'.peer v).role = .leader) :
    (g.peer v).role = .leader := by
  cases hmv with
  | elapse ms => exact hrole
  | start => exact hrole
  | @run u op p t h' p' hp ht hpr =>
    by_cases hv : v = u
    · subst hv
      rw [Group.act_peer_self] at hterm hrole
      exact hpr.lawful.moves.led hr.sound.history (hr.sound.peer v) hel hterm hrole
    · rwa [Group.act_peer_of_ne hv] at hrole
  | @fall a u ws h' p' committed hrun hms hw hd hfollower =>
    by_cases hv : v = u
    · subst hv
      rw [Group.act_peer_self] at hterm hrole
      exact hms.led hr.sound.history (hr.sound.peer v) hel hterm hrole
    · rwa [Group.act_peer_of_ne hv] at hrole

/-- A member that leads in a term after a step, and was elected in it before, led before. -/
theorem Moved.leaderOf (hr : Refines c g) (hmv : Moved c g a c' g') {p : Process}
    (hp : c.process v = some p) (hel : ∃ e ∈ g.history.elections, e.term = t ∧ e.leader = v)
    (hge : t ≤ (g.peer v).term) (h : c'.LeaderOf v t) : c.LeaderOf v t := by
  obtain ⟨p', hp', -⟩ := id h
  obtain ⟨hrole, hterm⟩ := (leaderOf_iff (hmv.refines hr) hp').mp h
  obtain ⟨e, he, het, hev⟩ := hel
  have hsame : (g.peer v).term = t := le_antisymm ((hmv.term_le v).trans_eq hterm) hge
  exact (leaderOf_iff hr hp).mpr
    ⟨hmv.led hr ⟨e, he, het.trans hsame.symm, hev⟩ (hterm.trans hsame.symm) hrole, hsame⟩

/-- **A leader at the end of a run** in which its process goes on, in a term that it was elected in
before, led in every state of the run. -/
theorem led_throughout {R : Cluster → Cluster → Prop}
    (hR : ∀ {c c'}, R c c' → (∃ a, c.step a = some c') ∧ (c.process v).isSome)
    (hrun : Relation.ReflTransGen R c c') (hend : c'.LeaderOf v t) :
    ∀ {g : Grp}, Refines c g → (∃ e ∈ g.history.elections, e.term = t ∧ e.leader = v) →
      t ≤ (g.peer v).term → c.LeaderOf v t := by
  induction hrun using Relation.ReflTransGen.head_induction_on with
  | refl => exact fun _ _ _ => hend
  | @head c₀ c₁ hstep _ ih =>
    intro g hr hel hge
    obtain ⟨⟨a, ha⟩, hup⟩ := hR hstep
    obtain ⟨p, hp⟩ := Option.isSome_iff_exists.mp hup
    obtain ⟨g', hmv⟩ := hr.step ha
    refine hmv.leaderOf hr hp hel hge ?_
    obtain ⟨e, he, hrest⟩ := hel
    exact ih (hmv.refines hr) ⟨e, (hmv.longer hr).elections.subset he, hrest⟩
      (hge.trans (hmv.term_le v))

/-- The steps of the call are steps of the cluster, and its process goes on. -/
theorem BarrierStep.goesOn (hstep : BarrierStep v i c c') :
    (∃ a, c.step a = some c') ∧ (c.process v).isSome := by
  refine ⟨hstep.step, ?_⟩
  obtain ⟨b, hb⟩ := Option.isSome_iff_exists.mp hstep.before
  obtain ⟨p, -, -, hp, -⟩ := Cluster.barrier_eq_some.mp hb
  exact Option.isSome_of_eq_some hp

/-- A step of the call keeps the term that it reads in and its beginning. -/
theorem BarrierStep.same (hr : Refines c g) (hstep : BarrierStep v i c c') {b b' : Barrier}
    (hb : c.barrier v i = some b) (hb' : c'.barrier v i = some b') :
    b'.readTerm = b.readTerm ∧ b'.firstRpc = b.firstRpc := by
  obtain ⟨a, ha⟩ := hstep.step
  obtain ⟨g', hmv⟩ := hr.step ha
  obtain ⟨p, key, acked, hp, hcall⟩ := Cluster.barrier_eq_some.mp hb
  obtain ⟨p', key', acked', hp', hcall'⟩ := Cluster.barrier_eq_some.mp hb'
  have hone : ∀ {q : Process}, c.process v = some q → q = p := fun hq =>
    Option.some.inj (hq.symm.trans hp)
  rcases hmv.process hp' with hq | ⟨n, rfl, -⟩ | ⟨q, op, turn, -, hq, ht, -, rfl⟩
  · obtain rfl := hone hq
    rw [hcall] at hcall'
    cases hcall'
    exact ⟨rfl, rfl⟩
  · cases hcall'
  · obtain rfl := hone hq
    rcases (turn_shifts ht).calls i _ hcall' with hsame | hbegun | ⟨old, hold, hnext⟩
    · rw [hcall] at hsame
      cases hsame
      exact ⟨rfl, rfl⟩
    · cases hbegun
    · rw [hcall] at hold
      cases hold
      cases hnext with
      | shift _ _ hreading => cases hreading
      | poll hpoll => cases hpoll <;> exact ⟨rfl, rfl⟩

/-- An answer that is new at the end of the call was given in one of its steps. -/
theorem answered_during (hrun : Relation.ReflTransGen (BarrierStep v i) c c') {x : Answer}
    (hnot : x ∉ c.answers) (hx : x ∈ c'.answers) :
    ∃ c₁ c₂, Relation.ReflTransGen (BarrierStep v i) c c₁ ∧ BarrierStep v i c₁ c₂ ∧
      Relation.ReflTransGen (BarrierStep v i) c₂ c' ∧ x ∉ c₁.answers ∧ x ∈ c₂.answers := by
  induction hrun with
  | refl => exact absurd hx hnot
  | @tail c₁ c₂ hrun hstep ih =>
    by_cases hmid : x ∈ c₁.answers
    · obtain ⟨d₁, d₂, hto, hd, hfrom, hbefore, hafter⟩ := ih hmid
      exact ⟨d₁, d₂, hto, hd, hfrom.tail hstep, hbefore, hafter⟩
    · exact ⟨c₁, c₂, hrun, hstep, .refl, hmid, hx⟩

/-- **A new answer** is that of a member in its turn, in the term it carries. -/
theorem Moved.answers (hr : Refines c g) (hmv : Moved c g a c' g') {x : Answer}
    (hnot : x ∉ c.answers) (hx : x ∈ c'.answers) : ∃ f op rpc q, a = .run f op ∧
      c.rpcs[x.rpc]? = some rpc ∧ rpc.target = f ∧ c'.process f = some q ∧
      q.node.state.currentTerm = x.response.term := by
  have hr' := hmv.refines hr
  cases hmv with
  | elapse ms => exact absurd hx hnot
  | start => exact absurd hx hnot
  | fall => exact absurd hx hnot
  | @run f op p t h' p' hp ht hpr =>
    rcases List.mem_append.mp hx with hold | hnew
    · exact absurd hold hnot
    obtain ⟨rpc, hrpc, htarget, -, -, hterm⟩ := hpr.answer x (Option.mem_toList.mp hnew)
    have hm := (hr'.up f t.process (Cluster.finish_process_self _ _ _)).mirrors
    refine ⟨f, op, rpc, t.process, rfl, hrpc, htarget, Cluster.finish_process_self _ _ _, ?_⟩
    rw [← hm.term, Group.act_peer_self, hterm]

/-- What `_confirm_read_quorum` has checked when it returns, and where it leaves the member. -/
theorem confirmFinish_checks {n : RaftNode} {readTerm : Int} {confirmed : List NodeId} {now : Nat}
    (hrun : (RaftNode.confirmFinish readTerm confirmed now n).result = .ok ()) :
    n.state.role = .leader ∧ n.state.currentTerm = readTerm ∧
      (RaftNode.confirmFinish readTerm confirmed now n).node.state.role = .leader ∧
      (RaftNode.confirmFinish readTerm confirmed now n).node.state.currentTerm = readTerm := by
  simp only [RaftNode.confirmFinish, NodeM.bind_run, NodeM.get_run, NodeM.andThen_ok,
    NodeM.behind_nil, NodeM.ite_run, NodeM.raise_run, NodeM.modify_run] at hrun ⊢
  split at hrun
  · cases hrun
  rename_i hlead
  split at hrun
  · cases hrun
  rename_i hsize
  rw [not_or, not_not, not_not] at hlead
  rw [if_neg (by rw [not_or, not_not, not_not]; exact hlead), if_neg hsize]
  obtain ⟨hrole, hterm⟩ := applyEntries_role n.log
    (n.state.commitIndex - n.state.lastApplied).toNat n.state n.store
  exact ⟨hlead.1, hlead.2, hrole.trans hlead.1, hterm.trans hlead.2⟩

/-- **The beginning of the call**: the member leads in the term it reads in, and every answer is to
a request sent before. -/
theorem BarrierStarts.begins (hr : Refines c g) (h : BarrierStarts v i c c') :
    ∃ b, c'.barrier v i = some b ∧ b.firstRpc = c.rpcs.length ∧ c.LeaderOf v b.readTerm ∧
      ∀ x ∈ c'.answers, x.rpc < c.rpcs.length := by
  obtain ⟨b, hb⟩ := Option.isSome_iff_exists.mp h.barrier
  obtain ⟨g', hmv⟩ := hr.step h.step
  obtain ⟨p, t, -, -, hp, ht, -, rfl, -⟩ := hmv.run_inv
  obtain ⟨q, key, acked, hq, hcall⟩ := Cluster.barrier_eq_some.mp hb
  rw [Cluster.finish_process_self] at hq
  cases hq
  replace ht : p.confirmStart i c.now c.rpcs.length = some t := ht
  unfold Process.confirmStart at ht
  split at ht
  · rename_i key' acked' hbefore
    split at ht
    · cases ht
    simp only at ht
    split at ht
    · cases ht
      simp only [Process.calls_endCall, reduceCtorEq] at hcall
    · rename_i readTerm followers hrun
      cases ht
      simp only [Process.calls_setCall] at hcall
      cases hcall
      obtain ⟨hrole, hterm⟩ := hr.confirmStart_ok hp hrun
      refine ⟨_, hb, rfl, ⟨p, hp, hrole, hterm⟩, fun x hx => ?_⟩
      have hold : x ∈ c.answers := by simpa [Cluster.finish] using hx
      obtain ⟨rpc, hrpc, -⟩ := hr.answers x hold
      exact (List.getElem?_eq_some_iff.mp hrpc).1
  · cases ht

/-- **The end of the call**: the member still leads in that term, and a quorum has confirmed it. -/
theorem BarrierReturns.ends (hr : Refines c g) (h : BarrierReturns v i c c') :
    ∃ b, c.barrier v i = some b ∧ c.LeaderOf v b.readTerm ∧ c'.LeaderOf v b.readTerm ∧
      c.members.quorumSize ≤ 1 + b.confirmed.length := by
  obtain ⟨b, hb⟩ := Option.isSome_iff_exists.mp h.barrier
  obtain ⟨p, key, acked, hp, hcall⟩ := Cluster.barrier_eq_some.mp hb
  obtain ⟨g', hmv⟩ := hr.step h.step
  obtain ⟨p', t, -, -, hp', ht, -, rfl, -⟩ := hmv.run_inv
  obtain rfl : p = p' := Option.some.inj (hp.symm.trans hp')
  obtain ⟨q, key', acked', readTerm, hq, hreturned⟩ := h.returned
  rw [Cluster.finish_process_self] at hq
  cases hq
  replace ht : p.confirmFinish i c.now = some t := ht
  unfold Process.confirmFinish at ht
  rw [hcall] at ht
  simp only at ht
  split at ht
  · cases ht
    simp only [Process.calls_endCall, reduceCtorEq] at hreturned
  · rename_i hrun
    cases ht
    obtain ⟨hrole, hterm, hrole', hterm'⟩ := confirmFinish_checks hrun
    have hsize := confirmFinish_ok hrun
    rw [(hr.up v p hp).members] at hsize
    exact ⟨b, hb, ⟨p, hp, hrole, hterm⟩, ⟨_, Cluster.finish_process_self _ _ _, hrole', hterm'⟩,
      hsize⟩

/-- The steps of the call are steps of the cluster. -/
theorem leads_of_barrierSteps (hrun : Relation.ReflTransGen (BarrierStep v i) c c') :
    Leads c c' := by
  induction hrun with
  | refl => exact .refl
  | tail _ hstep ih => exact ih.tail hstep.step

/-- The call keeps the term that it reads in and its beginning. -/
theorem barrier_same {m : Members} (hc : Reachable m c)
    (hrun : Relation.ReflTransGen (BarrierStep v i) c c') {b : Barrier}
    (hb : c.barrier v i = some b) : ∀ {b' : Barrier}, c'.barrier v i = some b' →
      b'.readTerm = b.readTerm ∧ b'.firstRpc = b.firstRpc := by
  induction hrun with
  | refl =>
    intro b' hb'
    obtain rfl : b = b' := Option.some.inj (hb.symm.trans hb')
    exact ⟨rfl, rfl⟩
  | @tail c₁ c₂ hrun hstep ih =>
    intro b' hb'
    obtain ⟨b₁, hb₁⟩ := Option.isSome_iff_exists.mp hstep.before
    obtain ⟨hterm, hfirst⟩ := ih hb₁
    have hmid : Reachable m c₁ := hc.trans (leads_of_barrierSteps hrun)
    obtain ⟨g, hr, -⟩ := hmid.refines
    obtain ⟨hterm', hfirst'⟩ := hstep.same hr hb₁ hb'
    exact ⟨hterm'.trans hterm, hfirst'.trans hfirst⟩

theorem Cluster.Leads.rpcs_isPrefix (hr : Refines c g) (hl : Leads c c') : c.rpcs <+: c'.rpcs := by
  obtain ⟨-, -, h⟩ := hl.invariant (I := fun c' _ => c.rpcs <+: c'.rpcs)
    (fun _ hi hmv => hi.trans hmv.network.1) hr (List.prefix_refl _)
  exact h

/-- What a barrier has counted and asked is on record. -/
theorem Cluster.Reachable.barrier_asked {m : Members} (hc : Reachable m c) {b : Barrier}
    (hb : c.barrier v i = some b) : ∃ g p, Refines c g ∧ c.process v = some p ∧
      b.Counts c v p (g.peer v).term ∧ b.Asked c g v p := by
  obtain ⟨g, hr, hread, hasked⟩ := hc.asked
  obtain ⟨p, key, acked, hp, hcall⟩ := Cluster.barrier_eq_some.mp hb
  exact ⟨g, p, hr, hp, (hread v p i _ hp hcall).1, hasked v p i _ hp hcall⟩

/-- **The member has led since any earlier step of the call** if it leads in the end. -/
theorem barrier_led {m : Members} (hc : Reachable m c)
    (hrun : Relation.ReflTransGen (BarrierStep v i) c c') {b : Barrier}
    (hb : c'.barrier v i = some b) (hled : c'.LeaderOf v b.readTerm) :
    c.LeaderOf v b.readTerm := by
  obtain ⟨b₁, hb₁⟩ : ∃ b₁, c.barrier v i = some b₁ := by
    rcases hrun.cases_head with rfl | ⟨d, hstep, -⟩
    · exact ⟨b, hb⟩
    · exact Option.isSome_iff_exists.mp hstep.before
  obtain ⟨g, p, hr, -, -, hask⟩ := hc.barrier_asked hb₁
  have hsame := (barrier_same hc hrun hb₁ hb).1
  exact led_throughout BarrierStep.goesOn hrun hled hr (hsame ▸ hask.elected) (hsame ▸ hask.reached)

/-- **A step of the call gave the answer** of every confirmed follower, if the answers that were
there before are to earlier requests. -/
theorem barrier_accepts {m : Members} (hc : Reachable m c)
    (hrun : Relation.ReflTransGen (BarrierStep v i) c c') {b : Barrier}
    (hb : c'.barrier v i = some b) (hled : c'.LeaderOf v b.readTerm)
    (hold : ∀ x ∈ c.answers, x.rpc < b.firstRpc) {f : NodeId} (hf : f ∈ b.confirmed) :
    ∃ c₁ c₂, Relation.ReflTransGen (BarrierStep v i) c c₁ ∧ BarrierStep v i c₁ c₂ ∧
      Relation.ReflTransGen (BarrierStep v i) c₂ c' ∧
      AcceptsFrom v f b.readTerm b.firstRpc c₁ c₂ := by
  obtain ⟨g, p, hr, hp, -, hask⟩ :=
    Reachable.barrier_asked (hc.trans (leads_of_barrierSteps hrun)) hb
  obtain ⟨x, hx, hfirst, haccepted, request, hrpc, hterm, hlow, hhigh⟩ := hask.confirmed f hf
  have hpresent := ((leaderOf_iff hr hp).mp hled).2
  have hrequest : request.term = b.readTerm := le_antisymm (hhigh.trans_eq hpresent) hlow
  obtain ⟨c₁, c₂, hto, hstep, hfrom, hbefore, hgiven⟩ :=
    answered_during hrun (fun hx₁ => absurd (hold x hx₁) (not_lt.mpr hfirst)) hx
  obtain ⟨g₁, hr₁, -⟩ := Reachable.refines (hc.trans (leads_of_barrierSteps hto))
  obtain ⟨a, ha⟩ := hstep.step
  obtain ⟨g₂, hmv⟩ := hr₁.step ha
  obtain ⟨u, op, rpc, q, rfl, hrpc', htarget, hq, hqterm⟩ := hmv.answers hr₁ hbefore hgiven
  -- the request is the one that the barrier has on record
  have hlater := (leads_of_barrierSteps (.head hstep hfrom)).rpcs_isPrefix hr₁
  obtain rfl : rpc = ⟨v, f, request.toRequest⟩ :=
    Option.some.inj ((getElem?_mono hlater hrpc').symm.trans hrpc)
  subst htarget
  exact ⟨c₁, c₂, hto, hstep, hfrom, ⟨op, ha⟩,
    ⟨x, hgiven, hbefore, haccepted, hfirst, request, hrequest, hrpc'⟩,
    q, hq, hqterm.trans (hterm.trans hrequest)⟩

end Run

/-! ## 4. What a normal return means -/

/-- **A fresh barrier**, for a call that begins between `c₀` and `c₁`, returns between `c` and
`c₂`, and has counted as `b` says: the member led in one term all along, and a majority, the member
included, has accepted a request of that term that the member sent after the call began, in that
term and in a step of the call. -/
structure BarrierFresh (m : Members) (v : NodeId) (i : Nat) (c₀ c₁ c c₂ : Cluster) (b : Barrier) :
    Prop where
  led_before : c₀.LeaderOf v b.readTerm
  led : ∀ c', Relation.ReflTransGen (BarrierStep v i) c₁ c' →
    Relation.ReflTransGen (BarrierStep v i) c' c → c'.LeaderOf v b.readTerm
  led_after : c₂.LeaderOf v b.readTerm
  member : v ∈ m
  others : ∀ f ∈ b.confirmed, f ∈ m.others v
  nodup : b.confirmed.Nodup
  majority : m.size < 2 * (1 + b.confirmed.length)
  accepted : ∀ f ∈ b.confirmed, ∃ c' c'', Relation.ReflTransGen (BarrierStep v i) c₁ c' ∧
    BarrierStep v i c' c'' ∧ Relation.ReflTransGen (BarrierStep v i) c'' c ∧
    AcceptsFrom v f b.readTerm c₀.rpcs.length c' c''

/-- **The read barrier is fresh**: in every run of the cluster, whatever the workers were at when
the call began. -/
theorem barrier_fresh {m : Members} {c₀ c₁ c c₂ : Cluster} {v : NodeId} {i : Nat}
    (h₀ : Reachable m c₀) (hstart : BarrierStarts v i c₀ c₁)
    (hrun : Relation.ReflTransGen (BarrierStep v i) c₁ c) (hreturn : BarrierReturns v i c c₂) :
    ∃ b, c.barrier v i = some b ∧ BarrierFresh m v i c₀ c₁ c c₂ b := by
  have h₁ : Reachable m c₁ := h₀.tail ⟨_, hstart.step⟩
  have hc : Reachable m c := h₁.trans (leads_of_barrierSteps hrun)
  have hmembers : c.members = m := by
    obtain ⟨-, -, hmembers⟩ := hc.refines
    exact hmembers
  obtain ⟨g₀, hr₀, -⟩ := h₀.refines
  obtain ⟨b₁, hb₁, hfirst₁, hled₀, hold⟩ := hstart.begins hr₀
  obtain ⟨g', hr', -⟩ := hc.refines
  obtain ⟨b, hb, hled, hled₂, hsize⟩ := hreturn.ends hr'
  obtain ⟨hterm, hfirst⟩ := barrier_same h₁ hrun hb₁ hb
  obtain ⟨g, p, hr, hp, hcounts, -⟩ := hc.barrier_asked hb
  rw [hmembers] at hsize
  rw [← hfirst₁, ← hfirst] at hold
  refine ⟨b, hb, {
    led_before := hterm ▸ hled₀
    led := fun c' hto hfrom =>
      barrier_led (h₁.trans (leads_of_barrierSteps hto)) hfrom hb hled
    led_after := hled₂
    member := hmembers ▸ (hr.up v p hp).member
    others := fun f hf => hmembers ▸ hcounts.followers f (hcounts.confirmed f hf).1
    nodup := hcounts.nodup
    majority := by
      unfold Members.quorumSize at hsize
      omega
    accepted := fun f hf => ?_ }⟩
  rw [← hfirst₁, ← hfirst]
  exact barrier_accepts h₁ hrun hb hled hold hf

/-! ## 5. A barrier that finds a task -/

/-- A run in which the call stays at its barrier. -/
def barrierRuns (v : NodeId) (i : Nat) : Cluster → List Action → Option Cluster
  | c, [] => some c
  | c, a :: as =>
    match c.step a with
    | none => none
    | some c' =>
      if (c.barrier v i).isSome ∧ (c'.barrier v i).isSome then barrierRuns v i c' as else none

theorem barrierRuns_steps {v : NodeId} {i : Nat} : ∀ {as : List Action} {c c' : Cluster},
    barrierRuns v i c as = some c' → Relation.ReflTransGen (BarrierStep v i) c c'
  | [], c, c', h => by
    cases h
    exact .refl
  | a :: as, c, c', h => by
    unfold barrierRuns at h
    split at h
    · cases h
    · rename_i c₁ hstep
      split at h
      · rename_i hboth
        exact .head ⟨⟨a, hstep⟩, hboth.1, hboth.2⟩ (barrierRuns_steps h)
      · cases h

/-- The leader sends a heartbeat, whose answer it does not wait for, and is asked to read. -/
def staleTask : List Action := [
  .run "a" .sendHeartbeats,
  .run "a" (.lockReplication 2),
  .run "a" (.beginRound 2),
  .run "a" (.submitTask 2 "b"),
  .run "a" (.workerBuild "b"),
  .run "a" (.finishRound 2),
  .run "a" (.linearizableGet "x")]

/-- The heartbeat is answered during the call, which takes the result away and asks again. -/
def askedAgain : List Action := [
  .run "b" (.deliver 3 3000),
  .run "a" (.workerAnswer "b" 2),
  .run "a" (.confirmPoll 4 "b"),
  .run "a" (.workerBuild "b"),
  .run "b" (.deliver 4 3000),
  .run "a" (.workerAnswer "b" 3),
  .run "a" (.confirmPoll 4 "b")]

/-- Call `i` of `v` has returned from its barrier. -/
def returnedOf (c : Cluster) (v : NodeId) (i : Nat) : Bool :=
  match (c.process v).bind fun p => p.calls i with
  | some (.finishRead _ _ _) => true
  | _ => false

theorem returnedOf_eq_true {c : Cluster} {v : NodeId} {i : Nat} (h : returnedOf c v i = true) :
    ∃ p key acked readTerm, c.process v = some p ∧
      p.calls i = some (.finishRead key acked readTerm) := by
  unfold returnedOf at h
  split at h
  · rename_i key acked readTerm hcall
    obtain ⟨p, hp, hcall⟩ := Option.bind_eq_some_iff.mp hcall
    exact ⟨p, key, acked, readTerm, hp, hcall⟩
  · cases h

theorem barrier_fresh_askedAgain : ∃ c₀ c₁ c c₂ b, Reachable threeMembers c₀ ∧
    c.barrier "a" 4 = some b ∧ b.confirmed = ["b"] ∧
    BarrierFresh threeMembers "a" 4 c₀ c₁ c c₂ b := by
  have hrun : ((afterAcknowledge.runs staleTask).bind fun c₀ =>
      (c₀.step (.run "a" (.confirmStart 4))).bind fun c₁ =>
        (barrierRuns "a" 4 c₁ askedAgain).bind fun c =>
          (c.step (.run "a" (.confirmFinish 4))).map fun c₂ =>
            ((c₁.barrier "a" 4).isSome, (c.barrier "a" 4).map (·.confirmed),
              returnedOf c₂ "a" 4)) = some (true, some ["b"], true) := by decide +kernel
  obtain ⟨c₀, h₀, hrun⟩ := Option.bind_eq_some_iff.mp hrun
  obtain ⟨c₁, h₁, hrun⟩ := Option.bind_eq_some_iff.mp hrun
  obtain ⟨c, hc, hrun⟩ := Option.bind_eq_some_iff.mp hrun
  obtain ⟨c₂, h₂, hend⟩ := Option.map_eq_some_iff.mp hrun
  obtain ⟨hbarrier, hend⟩ := Prod.mk.inj hend
  obtain ⟨hconfirmed, hreturned⟩ := Prod.mk.inj hend
  obtain ⟨b, hb, hconfirmed⟩ := Option.map_eq_some_iff.mp hconfirmed
  have hreach : Reachable threeMembers c₀ := afterAcknowledge_reachable.trans (runs_leads h₀)
  obtain ⟨b', hb', hfresh⟩ := barrier_fresh hreach ⟨h₁, hbarrier⟩ (barrierRuns_steps hc)
    ⟨h₂, Option.isSome_of_eq_some hb, returnedOf_eq_true hreturned⟩
  obtain rfl : b = b' := Option.some.inj (hb.symm.trans hb')
  exact ⟨c₀, c₁, c, c₂, b, hreach, hb, hconfirmed, hfresh⟩

end PyRaftKv
