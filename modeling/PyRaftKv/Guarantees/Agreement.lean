/-
# What the members agree on

The statements a user of the cluster relies on, about the nodes, logs, snapshots and files of the
cluster itself and for every state of every run.

* `applied_agree` -- all nodes apply the same commands in the same order, at any times.
* `one_leader_per_term` -- at most one node is ever leader in a term.
* `leader_complete` -- who becomes leader in a later term has all that was committed.
* `log_matching` -- two logs that agree on the term at one index agree below it.
* `commit_durable` -- what is committed is on the disks of a majority.
-/
import PyRaftKv.Refinement.Runs

open Consensus

namespace PyRaftKv

open Cluster

/-! ## 1. Holding an entry -/

/-- The snapshot's state is what the committed entries up to its index give, and `e` is one of
them. -/
structure RaftSnapshot.Reflects (s : RaftSnapshot) (committed : List LogEntry) (e : LogEntry) :
    Prop where
  below : e.index ≤ s.lastIncludedIndex
  entry : committed[(e.index - 1).toNat]? = some e
  covered : s.lastIncludedIndex ≤ committed.length
  state : Replays (committed.take s.lastIncludedIndex.toNat) ⟨s.state⟩

/-- A log and the snapshot below it have the entry `e`: in the log, or in the snapshot. -/
def Has (log : RaftLog) (s : RaftSnapshot) (committed : List LogEntry) (e : LogEntry) : Prop :=
  log.get e.index = some e ∨ s.Reflects committed e

section Has

variable {log : RaftLog} {s : RaftSnapshot} {l committed : List LogEntry} {b i : Nat}
  {e : LogEntry}

/-- A log and a snapshot that are those of a whole log have its entries. -/
theorem Has.of_getElem (hs : Shows log l b) (hc : Captures s l b) (hl : Whole l)
    (hb : l.take b <+: committed) (he : l[i]? = some e) : Has log s committed e := by
  have hidx := hl.index he
  rcases Nat.lt_or_ge i b with hlt | hge
  · right
    have hlen : (l.take b).length = b := List.length_take_of_le hs.le
    have hcut : committed.take b = l.take b := by
      have := prefix_eq_take hb
      rwa [hlen] at this
    refine ⟨by rw [hc.index]; omega, ?_, ?_, ?_⟩
    · rw [hidx, show ((i : Int) + 1 - 1).toNat = i by omega, getElem?_of_isPrefix hb (by omega),
        List.getElem?_take, if_pos hlt, he]
    · have := hb.length_le
      rw [hc.index]
      omega
    · rw [hc.index, Int.toNat_natCast, hcut]
      exact hc.state
  · left
    rw [hidx]
    exact hs.get_succ.mpr ⟨hge, he⟩

/-- And no others. -/
theorem Has.getElem (hs : Shows log l b) (hc : s.lastIncludedIndex = b)
    (hb : l.take b <+: committed) (hcw : Whole committed) (hh : Has log s committed e) :
    ∃ i : Nat, e.index = i + 1 ∧ l[i]? = some e := by
  rcases hh with hget | hr
  · obtain ⟨i, hidx, -, hi⟩ := hs.get_eq_some.mp hget
    exact ⟨i, hidx, hi⟩
  · have hidx := hcw.index hr.entry
    have hbelow := hr.below
    have hle := hs.le
    refine ⟨_, hidx, ?_⟩
    rw [← hr.entry, getElem?_of_isPrefix hb (by rw [List.length_take]; omega), List.getElem?_take,
      if_pos (by omega)]

end Has

section Refines

variable {c c' : Cluster} {g g' : Grp} {v : NodeId} {p : Process}

theorem Refines.committed_whole (hr : Refines c g) : Whole c.committed :=
  Whole.of_traced hr.whole
    (hr.sound.history.decided_traced ((hr.committed _).mpr (List.prefix_refl _)))

theorem Refines.peer_whole (hr : Refines c g) (v : NodeId) : Whole (g.peer v).log :=
  Whole.of_traced hr.whole (hr.sound.peer v).traced

/-- Below its boundary a member's log is the committed one. -/
theorem Refines.base_isPrefix (hr : Refines c g) (v : NodeId) :
    (g.peer v).log.take (g.peer v).base <+: c.committed :=
  (List.take_prefix_take_left (hr.sound.peer v).base_le).trans (hr.commit_le v)

theorem Refines.has (hr : Refines c g) (hp : c.process v = some p)
    (hc : c.committed <+: c'.committed) {i : Nat} {e : LogEntry}
    (he : (g.peer v).log[i]? = some e) : Has p.node.log p.node.snapshot c'.committed e :=
  have hm := (hr.up v p hp).mirrors
  .of_getElem hm.log hm.snapshot (hr.peer_whole v) ((hr.base_isPrefix v).trans hc) he

/-- A leader's election is on record, and its log is. -/
theorem Refines.led (hr : Refines c g) (hp : c.process v = some p)
    (hlead : p.node.state.role = .leader) :
    ∃ e ∈ g.history.elections, e.term = p.node.state.currentTerm ∧ e.leader = v ∧
      (g.peer v).log = g.history.leaderLog p.node.state.currentTerm := by
  have hm := (hr.up v p hp).mirrors
  obtain ⟨e, he, het, hev, hlog, -⟩ := (hr.sound.peer v).leader (by rw [hm.role, hlead]; rfl)
  rw [hm.term] at het hlog
  exact ⟨e, he, het, hev, hlog⟩

end Refines

/-! ## 2. State-machine safety -/

/-- What a node has applied is the first part of `agreed`. -/
structure Agrees (agreed : List RaftCommand) (n : RaftNode) : Prop where
  nonneg : 0 ≤ n.state.lastApplied
  le : n.state.lastApplied ≤ agreed.length
  store : (agreed.take n.state.lastApplied.toNat).foldlM applyCommand ({} : KVStore) = .ok n.store
  command : ∀ k e, k ≤ n.state.lastApplied → n.log.get k = some e →
    agreed[(k - 1).toNat]? = some e.command

theorem Refines.agrees {c c' : Cluster} {g : Grp} (hr : Refines c g) {v : NodeId} {p : Process}
    (hp : c.process v = some p) (hc : c.committed <+: c'.committed) :
    Agrees (c'.committed.map (·.command)) p.node := by
  have hm := (hr.up v p hp).mirrors
  have happ : p.node.state.lastApplied.toNat = (g.peer v).commit := by rw [hm.applied]; omega
  have hlen : ((g.peer v).log.take (g.peer v).commit).length = (g.peer v).commit :=
    List.length_take_of_le (hr.sound.peer v).commit_le
  have hpre := (hr.commit_le v).trans hc
  have hcut : c'.committed.take (g.peer v).commit = (g.peer v).log.take (g.peer v).commit := by
    have := prefix_eq_take hpre
    rwa [hlen] at this
  refine ⟨by rw [hm.applied]; omega, ?_, ?_, fun k e hk he => ?_⟩
  · have := hpre.length_le
    rw [hm.applied, List.length_map]
    omega
  · rw [happ, ← List.map_take, hcut, List.foldlM_map]
    exact hm.store
  · obtain ⟨i, rfl, -, hi⟩ := hm.log.get_eq_some.mp he
    rw [hm.applied] at hk
    rw [show ((i : Int) + 1 - 1).toNat = i by omega, List.getElem?_map,
      getElem?_of_isPrefix hpre (by omega), List.getElem?_take, if_pos (by omega), hi]
    rfl

/-- **State-machine safety.**  In every run, here up to `c`, there is one sequence of commands that
all nodes apply: whatever node at whatever time, its store is what the first commands of that
sequence give, up to its last applied index, and the command of each entry it applied is the one of
that index. -/
theorem applied_agree (m : Members) (c : Cluster) :
    ∃ agreed : List RaftCommand, ∀ {c₀ : Cluster} {v : NodeId} {p : Process},
      Reachable m c₀ → Leads c₀ c → c₀.process v = some p → Agrees agreed p.node := by
  refine ⟨c.committed.map (·.command), fun {c₀ v p} h₀ hl hp => ?_⟩
  obtain ⟨g₀, hr₀, -⟩ := h₀.refines
  obtain ⟨-, -, -, -, -, hc, -⟩ := hl.follows hr₀
  exact hr₀.agrees hp hc

/-- A leader that has applied the first write. -/
theorem applied_agree_firstWrite : ∃ (p : Process) (agreed : List RaftCommand),
    afterFirstWrite.process "a" = some p ∧ p.node.state.lastApplied = 1 ∧
      Agrees agreed p.node := by
  have hup : (afterFirstWrite.process "a").isSome = true := by decide +kernel
  have happ : (afterFirstWrite.process "a").map (·.node.state.lastApplied) = some 1 := by
    decide +kernel
  obtain ⟨p, hp⟩ := Option.isSome_iff_exists.mp hup
  obtain ⟨agreed, hall⟩ := applied_agree threeMembers afterFirstWrite
  rw [hp] at happ
  exact ⟨p, agreed, hp, Option.some.inj happ, hall afterFirstWrite_reachable .refl hp⟩

/-! ## 3. Election safety -/

/-- Member `v` leads in `term`. -/
def LeadsIn (c : Cluster) (v : NodeId) (term : Int) : Prop :=
  ∃ p, c.process v = some p ∧ p.node.state.role = .leader ∧ p.node.state.currentTerm = term

instance (c : Cluster) (v : NodeId) (term : Int) : Decidable (LeadsIn c v term) :=
  decidable_of_iff ((c.process v).any fun p =>
      decide (p.node.state.role = .leader ∧ p.node.state.currentTerm = term)) (by
    unfold LeadsIn
    rcases c.process v with _ | p <;> simp)

/-- **Election safety.**  Two members that lead in one term, at whatever times of a run, are the
same member. -/
theorem one_leader_per_term {m : Members} {c₁ c₂ : Cluster} {v₁ v₂ : NodeId} {term : Int}
    (hc : Reachable m c₁) (hl : Leads c₁ c₂) (h₁ : LeadsIn c₁ v₁ term) (h₂ : LeadsIn c₂ v₂ term) :
    v₁ = v₂ := by
  obtain ⟨p₁, hp₁, hlead₁, rfl⟩ := h₁
  obtain ⟨p₂, hp₂, hlead₂, hterm⟩ := h₂
  obtain ⟨g₁, hr₁, -⟩ := hc.refines
  obtain ⟨g₂, hr₂, -, hx, -⟩ := hl.follows hr₁
  obtain ⟨e₁, he₁, het₁, hev₁, -⟩ := hr₁.led hp₁ hlead₁
  obtain ⟨e₂, he₂, het₂, hev₂, -⟩ := hr₂.led hp₂ hlead₂
  obtain rfl := hr₂.sound.history.election_unique e₁ (hx.elections.subset he₁) e₂ he₂
    (by rw [het₁, het₂, hterm])
  exact hev₁.symm.trans hev₂

/-- One member leads in term 1, before and after it has elapsed some time. -/
theorem one_leader_per_term_firstWrite :
    LeadsIn afterFirstWrite "a" 1 ∧
      ∀ v, LeadsIn { afterFirstWrite with now := afterFirstWrite.now + 10 } v 1 → "a" = v := by
  have hlead : LeadsIn afterFirstWrite "a" 1 := by decide +kernel
  exact ⟨hlead, fun v hv =>
    one_leader_per_term afterFirstWrite_reachable (.single ⟨.elapse 10, rfl⟩) hlead hv⟩

/-! ## 4. Leader completeness -/

/-- In the step from `c` to `c'` member `v`, leader in `term`, raises its commit index to `k`. -/
def CommitsTo (c c' : Cluster) (v : NodeId) (term : Int) (k : Nat) : Prop :=
  ∃ id p p', c.step (.run v (.finishRound id)) = some c' ∧ c.process v = some p ∧
    c'.process v = some p' ∧ p'.node.state.role = .leader ∧ p'.node.state.currentTerm = term ∧
    p.node.state.commitIndex < k ∧ p'.node.state.commitIndex = k

/-- In the step from `c` to `c'` member `v` becomes leader in `term`. -/
def BecomesLeader (c c' : Cluster) (v : NodeId) (term : Int) : Prop :=
  Step c c' ∧ ¬ LeadsIn c v term ∧ LeadsIn c' v term

/-- The steps from `c₁` to `c₂` and from `c₃` to `c₄` are steps of one run to `c`, in either
order. -/
def InOneRun (m : Members) (c₁ c₂ c₃ c₄ c : Cluster) : Prop :=
  Reachable m c₁ ∧ Leads c₂ c₃ ∧ Leads c₄ c ∨ Reachable m c₃ ∧ Leads c₄ c₁ ∧ Leads c₂ c

theorem InOneRun.refines {m : Members} {c₁ c₂ c₃ c₄ c : Cluster} (h : InOneRun m c₁ c₂ c₃ c₄ c)
    (h₁ : Step c₁ c₂) (h₃ : Step c₃ c₄) :
    ∃ g₂ g₄ g, Refines c₂ g₂ ∧ Refines c₄ g₄ ∧ Refines c g ∧
      (g₂.history.Extends g.history ∧ c₂.committed <+: c.committed) ∧
      (g₄.history.Extends g.history ∧ c₄.committed <+: c.committed) := by
  have key : ∀ {c₁ c₂ c₃ c₄ : Cluster}, Step c₁ c₂ → Step c₃ c₄ → Reachable m c₁ →
      Leads c₂ c₃ → Leads c₄ c → ∃ g₂ g₄ g, Refines c₂ g₂ ∧ Refines c₄ g₄ ∧ Refines c g ∧
        (g₂.history.Extends g.history ∧ c₂.committed <+: c.committed) ∧
        (g₄.history.Extends g.history ∧ c₄.committed <+: c.committed) := by
    intro c₁ c₂ c₃ c₄ h₁ h₃ hc h₂₃ h₄
    obtain ⟨g₂, hr₂, -⟩ := Reachable.refines (hc.tail h₁)
    obtain ⟨g₄, hr₄, -, hx₂, -, hc₂, -⟩ := Leads.follows hr₂ (h₂₃.tail h₃)
    obtain ⟨g, hr, -, hx₄, -, hc₄, -⟩ := h₄.follows hr₄
    exact ⟨g₂, g₄, g, hr₂, hr₄, hr, ⟨hx₂.trans hx₄, hc₂.trans hc₄⟩, hx₄, hc₄⟩
  rcases h with ⟨hc, h₂₃, h₄⟩ | ⟨hc, h₄₁, h₂⟩
  · exact key h₁ h₃ hc h₂₃ h₄
  · obtain ⟨g₄, g₂, g, hr₄, hr₂, hr, hx₄, hx₂⟩ := key h₃ h₁ hc h₄₁ h₂
    exact ⟨g₂, g₄, g, hr₂, hr₄, hr, hx₂, hx₄⟩

/-- **Leader completeness, with snapshots.**  What a leader commits in `term`, every member that
becomes leader in a later term has when it does, in its log or in its snapshot, whichever of the
two happens first. -/
theorem leader_complete {m : Members} {c₁ c₂ c₃ c₄ c : Cluster} {v u : NodeId} {term term' : Int}
    {k : Nat} (hrun : InOneRun m c₁ c₂ c₃ c₄ c) (hcommit : CommitsTo c₁ c₂ v term k)
    (helect : BecomesLeader c₃ c₄ u term') (hterm : term < term') :
    ∃ p q, c₂.process v = some p ∧ c₄.process u = some q ∧ ∀ i, i < k → ∃ e,
      c.committed[i]? = some e ∧ Has p.node.log p.node.snapshot c.committed e ∧
      Has q.node.log q.node.snapshot c.committed e := by
  obtain ⟨id, p₁, p, hstep, -, hp, hlead, hpt, -, hk⟩ := hcommit
  obtain ⟨hstep', -, q, hq, hlead', hqt⟩ := helect
  obtain ⟨g₂, g₄, g, hr₂, hr₄, hr, ⟨hx₂, hc₂⟩, hx₄, hc₄⟩ := hrun.refines ⟨_, hstep⟩ hstep'
  have hm := (hr₂.up v p hp).mirrors
  obtain rfl : (g₂.peer v).commit = k := by
    have := hm.commit
    omega
  -- decided in the committing leader's term, so in the log of the new leader from the start
  obtain ⟨-, -, -, -, -, hdec⟩ := (hr₂.sound.peer v).leader (by rw [hm.role, hlead]; rfl)
  rw [hm.term, hpt] at hdec
  obtain ⟨e, he, het, -, hlog⟩ := hr₄.led hq hlead'
  have hheld : (g₂.peer v).log.take (g₂.peer v).commit <+: (g₄.peer u).log := by
    rw [hlog, hqt]
    exact hx₄.decided_from_start hr.sound.history ⟨e, he, het.trans hqt⟩ hterm
      (hx₂.decidedBy hr₂.sound.history hdec)
  refine ⟨p, q, hp, hq, fun i hi => ?_⟩
  have hlen : i < ((g₂.peer v).log.take (g₂.peer v).commit).length := by
    rwa [List.length_take_of_le (hr₂.sound.peer v).commit_le]
  obtain ⟨e, hei⟩ : ∃ e, ((g₂.peer v).log.take (g₂.peer v).commit)[i]? = some e :=
    ⟨_, List.getElem?_eq_getElem hlen⟩
  refine ⟨e, ?_, ?_, ?_⟩
  · rw [getElem?_of_isPrefix ((hr₂.commit_le v).trans hc₂) hlen, hei]
  · refine hr₂.has hp hc₂ (i := i) ?_
    rwa [List.getElem?_take, if_pos hi] at hei
  · refine hr₄.has hq hc₄ (i := i) ?_
    rw [getElem?_of_isPrefix hheld hlen, hei]

/-- The member that copied the first write asks for votes, and gets one. -/
def secondCampaign : List Action := [
  .elapse 3000,
  .run "b" (.tick 3000),
  .run "c" (.deliver 4 3000)]

theorem secondCampaign_runs : (afterFirstWrite.runs secondCampaign).isSome = true := by
  decide +kernel

def afterSecondCampaign : Cluster := (afterFirstWrite.runs secondCampaign).get secondCampaign_runs

theorem secondElection_steps :
    (afterSecondCampaign.step (.run "b" (.voteAnswer 2))).isSome = true := by
  decide +kernel

def afterSecondElection : Cluster :=
  (afterSecondCampaign.step (.run "b" (.voteAnswer 2))).get secondElection_steps

theorem CommitsTo.of_eq {c c' : Cluster} {v : NodeId} {id k : Nat} {term i : Int}
    (hs : c.step (.run v (.finishRound id)) = some c')
    (h : (c.process v).map (·.node.state.commitIndex) = some i) (hi : i < k)
    (h' : (c'.process v).map (fun p =>
      (p.node.state.role, p.node.state.currentTerm, p.node.state.commitIndex)) =
        some (.leader, term, (k : Int))) : CommitsTo c c' v term k := by
  obtain ⟨p, hp, rfl⟩ := Option.map_eq_some_iff.mp h
  obtain ⟨p', hp', heq⟩ := Option.map_eq_some_iff.mp h'
  simp only [Prod.mk.injEq] at heq
  exact ⟨id, p, p', hs, hp, hp', heq.1, heq.2.1, hi, heq.2.2⟩

theorem firstWrite_commits : CommitsTo afterFirstRound afterFirstWrite "a" 1 1 :=
  .of_eq afterFirstRound_step (i := 0) (by decide +kernel) (by decide) (by decide +kernel)

/-- The first write is in the log of the leader of term 2. -/
theorem leader_complete_secondElection :
    ∃ p q, afterFirstWrite.process "a" = some p ∧ afterSecondElection.process "b" = some q ∧
      ∀ i, i < 1 → ∃ e, afterSecondElection.committed[i]? = some e ∧
        Has p.node.log p.node.snapshot afterSecondElection.committed e ∧
        Has q.node.log q.node.snapshot afterSecondElection.committed e := by
  have hrun : InOneRun threeMembers afterFirstRound afterFirstWrite afterSecondCampaign
      afterSecondElection afterSecondElection :=
    Or.inl ⟨afterFirstRound_reachable,
      runs_leads (Option.some_get secondCampaign_runs).symm, .refl⟩
  have helect : BecomesLeader afterSecondCampaign afterSecondElection "b" 2 :=
    ⟨⟨_, (Option.some_get secondElection_steps).symm⟩, by decide +kernel, by decide +kernel⟩
  exact leader_complete hrun firstWrite_commits helect (by decide)

/-! ## 5. Log matching -/

/-- Up to index `k`, the snapshot and the log of node `n` describe the entries `l`. -/
structure Describes (n : RaftNode) (k : Int) (l : List LogEntry) : Prop where
  length : (l.length : Int) = k
  boundary : n.snapshot.lastIncludedIndex = n.log.baseIndex ∧ n.log.baseIndex ≤ k
  snapshot : Replays (l.take n.log.baseIndex.toNat) ⟨n.snapshot.state⟩
  retained : n.log.entries.take (k - n.log.baseIndex).toNat = l.drop n.log.baseIndex.toNat

theorem Mirrors.describes {n : RaftNode} {p : PeerState} (hm : Mirrors n p) {k : Nat}
    (hb : p.base ≤ k) (hk : k ≤ p.log.length) : Describes n k (p.log.take k) := by
  have hbase : n.log.baseIndex.toNat = p.base := by rw [hm.log.base]; omega
  refine ⟨?_, ⟨?_, ?_⟩, ?_, ?_⟩
  · rw [List.length_take_of_le hk]
  · rw [hm.snapshot.index, hm.log.base]
  · rw [hm.log.base]
    omega
  · rw [hbase, List.take_take, min_eq_left hb]
    exact hm.snapshot.state
  · rw [hbase, hm.log.entries, hm.log.base, List.drop_take,
      show ((k : Int) - p.base).toNat = k - p.base by omega]

/-- **Log matching, with compaction.**  Where two logs have the same term at an index, they have
the same entries at every index up to it that both retain, and with their snapshots they describe
the same entries up to it. -/
theorem log_matching {m : Members} {c : Cluster} (hc : Reachable m c) {u v : NodeId}
    {p q : Process} (hp : c.process u = some p) (hq : c.process v = some q) {k term : Int}
    (hu : p.node.log.termAt k = some term) (hv : q.node.log.termAt k = some term) :
    (∀ i x y, i ≤ k → p.node.log.get i = some x → q.node.log.get i = some y → x = y) ∧
      ∃ l, Describes p.node k l ∧ Describes q.node k l := by
  obtain ⟨g, hr, -⟩ := hc.refines
  have hmu := (hr.up u p hp).mirrors
  have hmv := (hr.up v q hq).mirrors
  obtain ⟨i, rfl, hbu, hiu, htu⟩ := hmu.log.termAt_eq_some.mp hu
  obtain ⟨j, hj, hbv, hjv, htv⟩ := hmv.log.termAt_eq_some.mp hv
  obtain rfl : i = j := by omega
  have heq : (g.peer u).log.take i = (g.peer v).log.take i :=
    (hr.sound.peer u).traced.take_eq (hr.sound.peer v).traced hiu hjv (htu.symm.trans htv)
  refine ⟨fun x a b hx ha hb => ?_, _, hmu.describes hbu hiu, heq ▸ hmv.describes hbv hjv⟩
  obtain ⟨s, rfl, -, hs⟩ := hmu.log.get_eq_some.mp ha
  obtain ⟨t, ht, -, ht'⟩ := hmv.log.get_eq_some.mp hb
  obtain rfl : s = t := by omega
  have hs' : ((g.peer u).log.take i)[s]? = some a := by
    rw [List.getElem?_take, if_pos (by omega), hs]
  rw [heq, List.getElem?_take, if_pos (by omega), ht'] at hs'
  exact (Option.some.inj hs').symm

/-- The leader's log and that of the member it copied the first write to. -/
theorem log_matching_firstWrite : ∃ p q, afterFirstWrite.process "a" = some p ∧
    afterFirstWrite.process "b" = some q ∧
    ∃ l, Describes p.node 1 l ∧ Describes q.node 1 l := by
  have ha : ((afterFirstWrite.process "a").bind fun p => p.node.log.termAt 1) = some 1 := by
    decide +kernel
  have hb : ((afterFirstWrite.process "b").bind fun p => p.node.log.termAt 1) = some 1 := by
    decide +kernel
  obtain ⟨p, hp, hpt⟩ := Option.bind_eq_some_iff.mp ha
  obtain ⟨q, hq, hqt⟩ := Option.bind_eq_some_iff.mp hb
  exact ⟨p, q, hp, hq, (log_matching afterFirstWrite_reachable hp hq hpt hqt).2⟩

/-! ## 6. Commit means durable -/

/-- The data directory has `e`, in its journal or in its snapshot. -/
def OnDiskHas (d : DataDir) (committed : List LogEntry) (e : LogEntry) : Prop :=
  ∃ journal, d.loadLog = .ok journal ∧ Has journal d.loadSnapshot committed e

/-- What a log has above a boundary that is moved up, it had before. -/
theorem RaftLog.get_of_install {log log' : RaftLog} {index term k : Int} {e : LogEntry}
    (h : log.installSnapshotBoundary index term = .ok log') (he : log'.get k = some e) :
    log.get k = some e := by
  unfold RaftLog.installSnapshotBoundary at h
  split_ifs at h with hlt heq hconf hhas
  · cases h
    exact he
  · -- the log above the boundary is kept
    cases h
    obtain ⟨hk, he⟩ := RaftLog.get_eq_some.mp he
    refine RaftLog.get_eq_some.mpr ⟨?_, ?_⟩
    · have : index < k := hk
      omega
    · have hk : index < k := hk
      simp only [RaftLog.rebase, RaftLog.position, List.getElem?_drop] at he
      rw [← he]
      congr 1
      unfold RaftLog.position
      omega
  · cases h
    obtain ⟨-, he⟩ := RaftLog.get_eq_some.mp he
    simp [RaftLog.boundary] at he

theorem OnDisk.has {d : DataDir} {p : PeerState} (hd : OnDisk d p) (hw : Whole p.log)
    {committed : List LogEntry} (hb : p.log.take p.base <+: committed) {i : Nat} {e : LogEntry}
    (he : p.log[i]? = some e) : OnDiskHas d committed e := by
  obtain ⟨journal, log, hj, -, hinst, hs⟩ := hd.log
  refine ⟨journal, hj, ?_⟩
  exact (Has.of_getElem hs hd.snapshot hw hb he).imp_left
    fun hget => RaftLog.get_of_install hinst hget

/-- A member's peer is on its disk at any time. -/
theorem Refines.onDisk {c : Cluster} {g : Grp} (hr : Refines c g) (v : NodeId) :
    OnDisk (c.disk v) (g.peer v) := by
  rcases hp : c.process v with _ | p
  · exact (hr.down v hp).1
  · exact (hr.live hp).onDisk

/-- More than half of the members. -/
def IsMajority (m : Members) (R : Finset NodeId) : Prop :=
  R ⊆ m.ids.toFinset ∧ m.size < 2 * R.card

theorem IsMajority.insert {m : Members} {R : Finset NodeId} (hR : IsMajority m R) {v : NodeId}
    (hv : v ∈ m) : IsMajority m (insert v R) := by
  refine ⟨Finset.insert_subset (List.mem_toFinset.mpr hv) hR.1, hR.2.trans_le ?_⟩
  have := Finset.card_le_card (Finset.subset_insert v R)
  omega

/-- **A majority holds what is committed**, at any time. -/
theorem Refines.majority {c : Cluster} {g : Grp} (hr : Refines c g) {v : NodeId}
    (hv : v ∈ c.members) :
    ∃ R, IsMajority c.members R ∧ ∀ u ∈ R, c.committed <+: (g.peer u).log := by
  rcases (hr.committed c.committed).mpr (List.prefix_refl _) with hnil | ⟨d, hd, hpre⟩
  · refine ⟨c.members.ids.toFinset, ⟨subset_rfl, ?_⟩, fun u _ => hnil ▸ List.nil_prefix⟩
    have : 0 < c.members.ids.toFinset.card := Finset.card_pos.mpr ⟨v, List.mem_toFinset.mpr hv⟩
    rw [c.members.card] at this ⊢
    omega
  · obtain ⟨R, hR, hRd, hcard⟩ := (hr.sound.history.decision_quorum d hd).1
    refine ⟨R, ⟨hR, c.members.card ▸ hcard⟩, fun u hu => ?_⟩
    exact hpre.trans (hr.sound.quorum_holds hd (hRd hu))

/-- Member `v` and a majority with it have on disk what its node `n` knows committed. -/
def Durable (c : Cluster) (v : NodeId) (n : RaftNode) : Prop :=
  ∃ R, IsMajority c.members R ∧ v ∈ R ∧ ∀ i : Nat, i < n.state.commitIndex → ∃ e,
    c.committed[i]? = some e ∧ Has n.log n.snapshot c.committed e ∧
      ∀ u ∈ R, OnDiskHas (c.disk u) c.committed e

theorem Refines.durable {c : Cluster} {g : Grp} (hr : Refines c g) {v : NodeId} {p : Process}
    (hp : c.process v = some p) : Durable c v p.node := by
  have hu := hr.up v p hp
  obtain ⟨R, hR, hheld⟩ := hr.majority hu.member
  refine ⟨insert v R, hR.insert hu.member, Finset.mem_insert_self v R, fun i hi => ?_⟩
  rw [hu.mirrors.commit] at hi
  have hlen : i < ((g.peer v).log.take (g.peer v).commit).length := by
    rw [List.length_take_of_le (hr.sound.peer v).commit_le]
    omega
  obtain ⟨e, he⟩ : ∃ e, ((g.peer v).log.take (g.peer v).commit)[i]? = some e :=
    ⟨_, List.getElem?_eq_getElem hlen⟩
  have hev : (g.peer v).log[i]? = some e := by
    rwa [List.getElem?_take, if_pos (by omega)] at he
  have hec : c.committed[i]? = some e := by rw [getElem?_of_isPrefix (hr.commit_le v) hlen, he]
  refine ⟨e, hec, hr.has hp (List.prefix_refl _) hev, fun u hu => ?_⟩
  refine (hr.onDisk u).has (hr.peer_whole u) (hr.base_isPrefix u) (i := i) ?_
  rcases Finset.mem_insert.mp hu with rfl | hu
  · exact hev
  · exact getElem?_mono (hheld u hu) hec

/-- **Commit means durable.**  When a leader raises its commit index to `k`, it and a majority with
it have the first `k` entries of its log on disk, in the journal or under the snapshot, and no other
member's disk has changed for it; and no member ever knows more committed than a majority has on
disk. -/
theorem commit_durable {m : Members} {c : Cluster} (hc : Reachable m c) :
    (∀ {c' : Cluster} {v : NodeId} {term : Int} {k : Nat}, CommitsTo c c' v term k →
      ∃ p', c'.process v = some p' ∧ p'.node.state.commitIndex = k ∧ Durable c' v p'.node ∧
        ∀ u, u ≠ v → c'.disk u = c.disk u) ∧
    ∀ {v : NodeId} {p : Process}, c.process v = some p → Durable c v p.node := by
  obtain ⟨g, hr, -⟩ := hc.refines
  refine ⟨fun {c' v term k} hcommit => ?_, fun hp => hr.durable hp⟩
  obtain ⟨id, p, p', hstep, hp, hp', -, -, -, hk⟩ := hcommit
  obtain ⟨g', hmv⟩ := hr.step hstep
  refine ⟨p', hp', hk, (hmv.refines hr).durable hp', fun u hu => ?_⟩
  simp only [Cluster.step, hp] at hstep
  obtain ⟨t, -, rfl⟩ := Option.map_eq_some_iff.mp hstep
  exact Cluster.finish_disk_of_ne _ _ _ hu

/-- The first write is on two disks when it is committed. -/
theorem commit_durable_firstWrite :
    ∃ p', afterFirstWrite.process "a" = some p' ∧ p'.node.state.commitIndex = 1 ∧
      Durable afterFirstWrite "a" p'.node := by
  obtain ⟨p', hp', hk, hd, -⟩ :=
    (commit_durable afterFirstRound_reachable).1 firstWrite_commits
  exact ⟨p', hp', hk, hd⟩

end PyRaftKv
