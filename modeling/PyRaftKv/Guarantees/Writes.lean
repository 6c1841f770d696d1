/-
# What an acknowledged write means

A write waits through several stretches for its entries to be replicated, and is answered from
their indexes alone.  Meanwhile its node may have stopped leading, lost the entries to another
leader, and be leading again with other entries at the same indexes.

* `Submitted` -- the entries a call waits for are entries of the leader they were appended by.
* `Vouched` -- what an acknowledgement says whatever becomes of the entry: its node led, and its
  commit index covered the entry's index with what was decided by then.
* `OnRecord` -- of an index that every log may have compacted since: a member's files had a term
  there once, with a commit index that covers it.
* `write_settled_iff` -- an entry answered `True` for is committed for good if and only if the
  log still has the entry's term at the entry's index, or, where the index is compacted, a member's
  files had it there.
-/
import PyRaftKv.Guarantees.Agreement
import PyRaftKv.Refinement.Calls

open Consensus

namespace PyRaftKv

open Cluster

/-! ## 1. What a call waits for -/

/-- The entries of every call are in the log of the leader of their term. -/
def Submitted (c : Cluster) (g : Grp) : Prop :=
  c.AllCalls fun _ _ call => ∀ e ∈ call.entries,
    g.history.Elected e.term ∧ e ∈ g.history.leaderLog e.term

section Submitted

variable {c c' : Cluster} {g g' : Grp} {a : Action} {v : NodeId} {p : Process} {t : Turn}

/-- **What `submit_commands` appends** is in its leader's log afterwards. -/
theorem Refines.appended (hr : Refines c g) (hp : c.process v = some p)
    {commands : List RaftCommand}
    {es : List LogEntry} (hrun : (RaftNode.submitStart commands p.node).result = .ok es)
    (ht : p.turn c v (.submitCommands commands) = some t)
    (hr' : Refines (c.finish v (.submitCommands commands) t) g') :
    ∀ e ∈ es, g'.history.Elected e.term ∧ e ∈ g'.history.leaderLog e.term := by
  have hl := hr.live hp
  rcases submitStart_lawful hl commands with ⟨result, hrun', hnone, -⟩ |
    ⟨es', n', ws, h', hrun', hla, -, hlead, hstate, hterm, -⟩
  · rw [hrun'] at hrun
    rw [hnone es hrun]
    exact fun e he => absurd he (List.not_mem_nil)
  rw [hrun'] at hrun
  obtain rfl := Except.ok.inj hrun
  have hnode : t.process.node = n' := by
    simp only [Process.turn, hrun'] at ht
    split at ht <;> cases ht <;> rfl
  have hp' := finish_process_self c (v := v) (.submitCommands commands) t
  have hlead' : t.process.node.state.role = .leader := by rw [hnode, hstate, hlead]
  obtain ⟨el, hel, helt, -, hlog⟩ := hr'.led hp' hlead'
  rw [hnode, hstate] at helt hlog
  -- the log shows the new entries, and the peer's log is what the log shows
  have hshow := (hr'.up v _ hp').mirrors.log
  rw [hnode] at hshow
  have hentries := hshow.entries.symm.trans hla.up.mirrors.log.entries
  intro e he
  have hmem : e ∈ (g'.peer v).log := by
    refine List.mem_of_mem_drop (i := (g'.peer v).base) ?_
    rw [hentries]
    change e ∈ ((g.peer v).log ++ es').drop (g.peer v).base
    rw [List.drop_append_of_le_length hl.mirrors.log.le]
    exact List.mem_append_right _ he
  rw [hterm e he]
  exact ⟨⟨el, hel, helt⟩, hlog ▸ hmem⟩

theorem Moved.submitted (hr : Refines c g) (hs : Submitted c g) (hmv : Moved c g a c' g') :
    Submitted c' g' := by
  have hx := hmv.longer hr
  have hkeep : ∀ {es : List LogEntry},
      (∀ e ∈ es, g.history.Elected e.term ∧ e ∈ g.history.leaderLog e.term) →
      ∀ e ∈ es, g'.history.Elected e.term ∧ e ∈ g'.history.leaderLog e.term :=
    fun h e he => ⟨hx.elected (h e he).1, (hx.leader_isPrefix (h e he).1).subset (h e he).2⟩
  refine hmv.allCalls hs (fun _ _ _ _ => hkeep) ?_
  rintro u p op t hp ht rfl hsh call
  refine ⟨hkeep, fun hbegun => ?_, fun old hold hnext => ?_⟩
  · rcases hbegun with hrun | _ | _ | _ | _
    · exact hr.appended hp hrun ht (hmv.refines hr)
    all_goals exact fun e he => nomatch he
  · cases hnext with
    | shift hentries => rw [hentries]; exact hkeep hold
    | answer | barrier | poll | confirm => exact fun e he => nomatch he

/-- In every reachable state the entries a call waits for were appended by the leader of their
term. -/
theorem Cluster.Reachable.submitted {m : Members} (hc : Reachable m c) :
    ∃ g, Refines c g ∧ c.members = m ∧ Submitted c g := by
  obtain ⟨g, hr, hm, hs⟩ := Leads.invariant (I := fun c g => c.members = m ∧ Submitted c g)
    (fun hr hi hmv => ⟨hmv.members.trans hi.1, hmv.submitted hr hi.2⟩) (initial_refines m)
    ⟨rfl, fun _ _ _ _ hp => nomatch hp⟩ hc
  exact ⟨g, hr, hm, hs⟩

end Submitted

/-! ## 2. What an acknowledgement says -/

/-- **An acknowledgement is vouched for**: its node led in its term, and its commit index covered
the index of the entry, with what had been decided by that term. -/
structure Vouched (g : Grp) (a : Acknowledgement) : Prop where
  elected : ∃ e ∈ g.history.elections, e.term = a.term ∧ e.leader = a.node
  known : a.entry.index ≤ (g.peer a.node).commit
  decided : ∃ l, g.history.DecidedBy a.term l ∧ a.entry.index ≤ l.length

/-- What `submit_commands` answers `True` for. -/
theorem submitResults_true {n : RaftNode} {es : List LogEntry} {results : List Bool} {e : LogEntry}
    (hrun : (RaftNode.submitResults es n).result = .ok results) (he : (e, true) ∈ es.zip results) :
    e ∈ es ∧ n.state.role = .leader ∧ e.index ≤ n.state.commitIndex := by
  simp only [RaftNode.submitResults, NodeM.bind_run, NodeM.get_run, NodeM.andThen_ok,
    NodeM.behind_nil, NodeM.ite_run, NodeM.pure_run] at hrun
  split at hrun
  · obtain rfl := Except.ok.inj hrun
    rw [← List.map_prod_left_eq_zip] at he
    obtain ⟨x, -, hx⟩ := List.mem_map.mp he
    cases hx
  · rename_i hlead
    rw [not_or, not_not] at hlead
    obtain rfl := Except.ok.inj hrun
    rw [← List.map_prod_left_eq_zip] at he
    obtain ⟨x, hmem, hx⟩ := List.mem_map.mp he
    obtain ⟨rfl, hle⟩ := Prod.mk.inj hx
    exact ⟨hmem, hlead.1, of_decide_eq_true hle⟩

section Vouched

variable {c c' : Cluster} {g g' : Grp} {a : Action} {v : NodeId} {p : Process}

theorem Vouched.extend {m : Members} {x : Acknowledgement} (hs : g.Sound m.quorums)
    (hx : g.history.Extends g'.history) (hc : ∀ u, (g.peer u).commit ≤ (g'.peer u).commit)
    (h : Vouched g x) : Vouched g' x := by
  obtain ⟨e, he, hrest⟩ := h.elected
  obtain ⟨l, hl, hlen⟩ := h.decided
  refine ⟨⟨e, hx.elections.subset he, hrest⟩, h.known.trans ?_, l, hx.decidedBy hs.history hl, hlen⟩
  exact_mod_cast hc x.node

/-- **What a node answers `True` for**, it can vouch for. -/
theorem Refines.vouched (hr : Refines c g) (hp : c.process v = some p) {es : List LogEntry}
    {results : List Bool} (hrun : (RaftNode.submitResults es p.node).result = .ok results) :
    ∀ x ∈ writtenOf p.node es results, Vouched g x := by
  intro x hx
  obtain ⟨⟨e, r⟩, hmem, rfl⟩ := List.mem_map.mp hx
  obtain ⟨hmem, rfl⟩ : (e, r) ∈ es.zip results ∧ r = true := List.mem_filter.mp hmem
  obtain ⟨-, hlead, hle⟩ := submitResults_true hrun hmem
  have hup := hr.up v p hp
  have hm := hup.mirrors
  obtain ⟨el, hel, helt, helv, -⟩ := hr.led hp hlead
  obtain ⟨-, -, -, -, -, hdec⟩ := (hr.sound.peer v).leader (by rw [hm.role, hlead]; rfl)
  rw [hm.term] at hdec
  rw [hm.commit] at hle
  refine ⟨⟨el, hel, helt, helv.trans hup.id.symm⟩, ?_, _, hdec, ?_⟩
  · change e.index ≤ (g.peer p.node.nodeId).commit
    rwa [hup.id]
  · rwa [List.length_take_of_le (hr.sound.peer v).commit_le]

/-- Every acknowledgement that was given, is about to be given, or was there when a read was
called, is vouched for. -/
structure AllVouched (c : Cluster) (g : Grp) : Prop where
  given : ∀ x ∈ c.acknowledged, Vouched g x
  written : c.AllCalls fun _ _ call => ∀ x ∈ call.written, Vouched g x
  acked : c.AllCalls fun _ _ call => ∀ x ∈ call.acked, Vouched g x

theorem Moved.vouched (hr : Refines c g) (hs : AllVouched c g) (hmv : Moved c g a c' g') :
    AllVouched c' g' := by
  have hkeep : ∀ {xs : List Acknowledgement}, (∀ x ∈ xs, Vouched g x) → ∀ x ∈ xs, Vouched g' x :=
    fun h x hx => (h x hx).extend hr.sound (hmv.longer hr) hmv.commit_le
  refine ⟨?_, hmv.allCalls hs.written (fun _ _ _ _ => hkeep) ?_,
    hmv.allCalls hs.acked (fun _ _ _ _ => hkeep) ?_⟩
  · have hgiven := hkeep hs.given
    cases hmv with
    | elapse => exact hgiven
    | start => exact hgiven
    | fall => exact hgiven
    | @run v op p t _ _ hp ht _ =>
      intro x hx
      rcases List.mem_append.mp hx with hx | hx
      · exact hgiven x hx
      · obtain ⟨i, call, hcall, hmem⟩ := (turn_shifts ht).acknowledged x hx
        exact hkeep (hs.written v p i call hp hcall) x hmem
  · rintro u p op t hp ht rfl hsh call
    refine ⟨hkeep, fun hbegun => ?_, fun old hold hnext => ?_⟩
    · cases hbegun <;> exact fun x hx => nomatch hx
    · cases hnext with
      | shift _ hwritten => rw [hwritten]; exact hkeep hold
      | answer hrun => exact hkeep (hr.vouched hp hrun)
      | barrier | poll | confirm => exact fun x hx => nomatch hx
  · rintro u p op t hp ht rfl hsh call
    refine ⟨hkeep, fun hbegun => ?_, fun old hold hnext => ?_⟩
    · cases hbegun with
      | linearizableGet => exact hkeep hs.given
      | submitCommands | replicateLog | sendHeartbeats | transferLeadership =>
        exact fun x hx => nomatch hx
    · cases hnext with
      | shift _ _ hreading =>
        rw [Call.acked_of_not_reading hreading]
        exact fun x hx => nomatch hx
      | answer => exact fun x hx => nomatch hx
      | barrier | poll | confirm => exact hkeep hold

end Vouched

/-! ## 3. What the files of the members have shown -/

/-- At some moment of the run, a member started from its files would have `term` at `index`, with a
commit index that covers it. -/
def OnRecord (m : Members) (c : Cluster) (index term : Int) : Prop :=
  ∃ (c₁ : Cluster) (u : NodeId) (clock : Clock) (n : RaftNode) (ws : List Write),
    Reachable m c₁ ∧ Leads c₁ c ∧ RaftNode.init u m (c₁.disk u) clock = ⟨.ok n, ws⟩ ∧
      index ≤ n.state.commitIndex ∧ n.log.termAt index = some term

theorem Shows.termAt_succ {log : RaftLog} {l : List LogEntry} {b i : Nat} {x : LogEntry}
    (hs : Shows log l b) (hb : b ≤ i + 1) (hx : l[i]? = some x) :
    log.termAt ((i : Int) + 1) = some x.term := by
  have hi : i < l.length := (List.getElem?_eq_some_iff.mp hx).1
  have hat := hs.termAt hb hi
  rw [lastStamp_take_succ hx] at hat
  exact_mod_cast hat

section OnRecord

variable {m : Members} {c c' : Cluster} {g : Grp} {u : NodeId} {i : Nat}

theorem OnRecord.mono {index term : Int} (h : OnRecord m c index term) (hl : Leads c c') :
    OnRecord m c' index term := by
  obtain ⟨c₁, u, clock, n, ws, hc, hbefore, hrest⟩ := h
  exact ⟨c₁, u, clock, n, ws, hc, hbefore.trans hl, hrest⟩

/-- A member starts from its files as the same peer, a follower. -/
theorem Refines.inits (hr : Refines c g) (hmem : u ∈ c.members) (clock : Clock) :
    ∃ n ws, RaftNode.init u c.members (c.disk u) clock = ⟨.ok n, ws⟩ ∧
      Mirrors n { g.peer u with role := .follower } := by
  have hpeer : ({ g.peer u with role := .follower } : PeerState).Sound g.history u :=
    (Moves.stepDown (Q := c.members.quorums) .refl).sound hr.sound.history (hr.sound.peer u) |>.peer
  obtain ⟨n, ws, hinit, hup, -⟩ := init_recovers ((hr.onDisk u).role .follower) hmem rfl hpeer
    (Whole.of_traced hr.whole hpeer.traced) clock
  exact ⟨n, ws, hinit, hup.mirrors⟩

theorem Refines.init_mirrors (hr : Refines c g) {clock : Clock} {n : RaftNode} {ws : List Write}
    (hinit : RaftNode.init u c.members (c.disk u) clock = ⟨.ok n, ws⟩) :
    Mirrors n { g.peer u with role := .follower } := by
  have hmem : u ∈ c.members := by
    by_contra hmem
    simp [RaftNode.init, hmem] at hinit
  obtain ⟨n', ws', hinit', hm⟩ := hr.inits hmem clock
  rw [hinit] at hinit'
  cases hinit'
  exact hm

/-- **What is on record is committed.** -/
theorem OnRecord.committed {term : Int} (h : OnRecord m c ((i : Int) + 1) term) :
    (c.committed[i]?).map (·.term) = some term := by
  obtain ⟨c₁, u, clock, n, ws, hc, hl, hinit, hcommit, hterm⟩ := h
  obtain ⟨g, hr, rfl⟩ := hc.refines
  have hm := hr.init_mirrors hinit
  have hlen := (hr.sound.peer u).commit_le
  have hbase := (hr.sound.peer u).base_le
  have hle : i < (g.peer u).commit := by
    rw [hm.commit] at hcommit
    exact_mod_cast hcommit
  obtain ⟨x, hx⟩ : ∃ x, (g.peer u).log[i]? = some x := ⟨_, List.getElem?_eq_getElem (by omega)⟩
  obtain ⟨j, hj, hbj, -⟩ := hm.log.termAt_eq_some.mp hterm
  obtain rfl : j = i + 1 := by omega
  have hat : n.log.termAt ((i : Int) + 1) = some x.term := hm.log.termAt_succ hbj hx
  obtain ⟨-, -, -, -, -, hcc, -⟩ := hl.follows hr
  have hcommitted : c.committed[i]? = some x := by
    refine getElem?_mono ((hr.commit_le u).trans hcc) ?_
    rw [List.getElem?_take, if_pos hle, hx]
  rw [hcommitted]
  exact hat.symm.trans hterm

/-- A step that commits is a `replicate_log`, which has written its file. -/
theorem Refines.commits (hr : Refines c g) {a : Action} (hs : c.step a = some c')
    (hnew : c'.committed ≠ c.committed) :
    ∃ v p j t, c.process v = some p ∧ p.turn c v (.finishRound j) = some t ∧
      c'.disk v = (c.disk v).writes t.writes ∧
      c'.committed = c.committed ++ newlyCommitted c.committed t.process.node := by
  cases a with
  | elapse ms =>
    cases hs
    exact absurd rfl hnew
  | start v timeout =>
    simp only [Cluster.step] at hs
    split at hs
    · cases hs
    split at hs
    · split at hs <;> cases hs <;> exact absurd rfl hnew
    · cases hs
  | startCrash v timeout effects =>
    simp only [Cluster.step] at hs
    split at hs <;> cases hs
    exact absurd rfl hnew
  | run v op =>
    simp only [Cluster.step] at hs
    split at hs
    · cases hs
    rename_i p hp
    obtain ⟨t, ht, rfl⟩ := Option.map_eq_some_iff.mp hs
    cases op with
    | finishRound j => exact ⟨v, p, j, t, hp, ht, finish_disk_self _ _ _, rfl⟩
    | _ => exact absurd rfl hnew
  | crash v op effects =>
    simp only [Cluster.step] at hs
    split at hs
    · cases hs
    rename_i p hp
    obtain ⟨t, ht, rfl⟩ := Option.map_eq_some_iff.mp hs
    by_cases hadvances : Op.advances op = true ∧ effects ≠ 0
    · obtain ⟨j, rfl⟩ : ∃ j, op = .finishRound j := by
        cases op <;> simp [Op.advances] at hadvances ⊢
      -- the state is the only file that the stretch writes
      have hsingle := finishRound_single hr hp ht
      have hall : t.writes.take effects = t.writes := List.take_of_length_le (by omega)
      refine ⟨v, p, j, t, hp, ht, ?_, if_pos hadvances⟩
      change (c.down v (t.writes.take effects)).disk v = _
      rw [down_disk_self, hall]
    · exact absurd (if_neg hadvances) hnew

/-- **What is committed is on record.** -/
theorem Cluster.Reachable.onRecord (hc : Reachable m c) {x : LogEntry}
    (hx : c.committed[i]? = some x) : OnRecord m c ((i : Int) + 1) x.term := by
  induction hc with
  | refl => cases hx
  | @tail c₁ c' hc hstep ih =>
    obtain ⟨a, hstep⟩ := hstep
    obtain ⟨g, hr, rfl⟩ := Reachable.refines hc
    obtain ⟨g', hmv⟩ := hr.step hstep
    rcases Nat.lt_or_ge i c₁.committed.length with hi | hi
    · have hbefore : c₁.committed[i]? = some x := by
        rw [← getElem?_of_isPrefix (hmv.committed hr) hi, hx]
      exact (ih hbefore).mono (.single ⟨a, hstep⟩)
    · have hnew : c'.committed ≠ c₁.committed := by
        intro h
        rw [h, List.getElem?_eq_none hi] at hx
        cases hx
      obtain ⟨v, p, j, t, hp, ht, hdisk, hcommitted⟩ := hr.commits hstep hnew
      have hindex : x.index = i + 1 := (hmv.refines hr).committed_whole.index hx
      rw [hcommitted, List.getElem?_append_right hi] at hx
      obtain ⟨hentry, hcover⟩ := List.mem_filter.mp (List.mem_of_getElem? hx)
      have hcover := (of_decide_eq_true hcover).2
      -- the same turn, run to its end, leaves the same file
      have hrun : c₁.step (.run v (.finishRound j)) = some (c₁.finish v (.finishRound j) t) := by
        simp only [Cluster.step, hp, ht, Option.map_some]
      obtain ⟨g₂, hmv₂⟩ := hr.step hrun
      have hl := (hmv₂.refines hr).live (finish_process_self c₁ (.finishRound j) t)
      obtain ⟨n, ws, hinit, hm⟩ := (hmv₂.refines hr).inits hl.member ⟨0, 0⟩
      rw [finish_disk_self, ← hdisk] at hinit
      rw [hl.mirrors.log.entries] at hentry
      obtain ⟨k, hk⟩ := List.mem_iff_getElem?.mp hentry
      rw [List.getElem?_drop] at hk
      have hki := hl.log_whole.index hk
      refine ⟨c', v, _, n, ws, hc.tail ⟨a, hstep⟩, .refl, hinit, ?_, ?_⟩
      · rw [hm.commit]
        rw [hl.mirrors.commit] at hcover
        exact hindex.symm.trans_le hcover
      · obtain rfl : (g₂.peer v).base + k = i := by omega
        exact hm.log.termAt_succ (Nat.le_succ_of_le (Nat.le_add_right _ _)) hk

end OnRecord

/-! ## 4. Writes answered `True` -/

/-- The node still has the term of `e` at the index of `e`: in its log or at the boundary of its
snapshot, or, where the snapshot covers the index, a member's files had it there once, with a commit
index that covers it. -/
def Retains (m : Members) (c : Cluster) (n : RaftNode) (e : LogEntry) : Prop :=
  n.log.termAt e.index = some e.term ∨
    e.index < n.log.baseIndex ∧ OnRecord m c e.index e.term

/-- The entry `e` is committed: at its index in what is committed, and with its node `v` and with
every leader of `term` or a later term, in the log or in the snapshot. -/
structure Settled (c : Cluster) (v : NodeId) (term : Int) (e : LogEntry) : Prop where
  committed : c.committed[(e.index - 1).toNat]? = some e
  node : ∀ p, c.process v = some p → Has p.node.log p.node.snapshot c.committed e
  leaders : ∀ u p, c.process u = some p → p.node.state.role = .leader →
    term ≤ p.node.state.currentTerm → Has p.node.log p.node.snapshot c.committed e

section Settled

variable {m : Members} {c c' : Cluster} {g : Grp} {v : NodeId} {p : Process} {e : LogEntry}
  {i : Nat}

/-- **The term tells the entry**: of a submitted entry that the commit index covers, the node has
the term at the index if and only if it has the entry. -/
theorem Refines.retains_iff (hr : Refines c g) (hc : Reachable m c) (hp : c.process v = some p)
    (hsub : e ∈ g.history.leaderLog e.term) (hi : e.index = i + 1) (hle : i < (g.peer v).commit) :
    Retains m c p.node e ↔ (g.peer v).log[i]? = some e := by
  have hm := (hr.up v p hp).mirrors
  have hpeer := hr.sound.peer v
  have hlen := hpeer.commit_le
  obtain ⟨x, hx⟩ : ∃ x, (g.peer v).log[i]? = some x := ⟨_, List.getElem?_eq_getElem (by omega)⟩
  have hcommitted : c.committed[i]? = some x := by
    rw [getElem?_of_isPrefix (hr.commit_le v) (by rw [List.length_take]; omega),
      List.getElem?_take, if_pos hle, hx]
  -- the terms at one index agree only if the entries do
  have hterm : x.term = e.term ↔ x = e := by
    refine ⟨fun h => ?_, fun h => h ▸ rfl⟩
    obtain ⟨j, hj⟩ := List.mem_iff_getElem?.mp hsub
    have hji := (hr.whole e.term).index hj
    obtain rfl : j = i := by omega
    have htake := hpeer.traced.matching (hr.sound.history.leader_traced e.term) hx hj h
    have hat : (g.peer v).log[j]? = (g.history.leaderLog e.term)[j]? := by
      have := congrArg (·[j]?) htake
      simpa [List.getElem?_take] using this
    exact Option.some.inj ((hx.symm.trans hat).trans hj)
  rw [hx, Option.some.injEq, ← hterm]
  unfold Retains
  rw [hi, hm.log.base]
  rcases Nat.lt_or_ge (i + 1) (g.peer v).base with hb | hb
  · have hnone : p.node.log.termAt ((i : Int) + 1) ≠ some e.term := by
      rw [ne_eq, hm.log.termAt_eq_some]
      rintro ⟨j, hj, hbj, -⟩
      omega
    rw [or_iff_right hnone]
    constructor
    · rintro ⟨-, hrecord⟩
      have hterm' := hrecord.committed
      rw [hcommitted] at hterm'
      exact Option.some.inj hterm'
    · intro h
      exact ⟨by omega, h ▸ hc.onRecord hcommitted⟩
  · rw [hm.log.termAt_succ hb hx, or_iff_left (by omega)]
    exact Option.some_inj

/-- **An entry is settled once a leader's commit index covers it**, in every later state. -/
theorem Refines.settled (hr : Refines c g) (hp : c.process v = some p)
    (hlead : p.node.state.role = .leader) (hi : e.index = i + 1) (hle : i < (g.peer v).commit)
    (he : (g.peer v).log[i]? = some e) (hl : Leads c c') :
    Settled c' v p.node.state.currentTerm e := by
  have hm := (hr.up v p hp).mirrors
  have hat : ((g.peer v).log.take (g.peer v).commit)[i]? = some e := by
    rw [List.getElem?_take, if_pos hle, he]
  have hlen : i < ((g.peer v).log.take (g.peer v).commit).length :=
    (List.getElem?_eq_some_iff.mp hat).1
  obtain ⟨-, -, -, -, -, hdec⟩ := (hr.sound.peer v).leader (by rw [hm.role, hlead]; rfl)
  obtain ⟨g', hr', -, hx, -, hc, hcommit⟩ := hl.follows hr
  have hcommitted : c'.committed[i]? = some e := by
    rw [getElem?_of_isPrefix ((hr.commit_le v).trans hc) hlen, hat]
  refine ⟨by rwa [hi, show ((i : Int) + 1 - 1).toNat = i by omega], fun q hq => ?_,
    fun u q hq hlead' hterm => ?_⟩
  · refine hr'.has hq (List.prefix_refl _) (i := i) ?_
    have hle' : i < (g'.peer v).commit := hle.trans_le (hcommit v).1
    have hlen' : i < ((g'.peer v).log.take (g'.peer v).commit).length := by
      rwa [List.length_take_of_le (hr'.sound.peer v).commit_le]
    rw [← hcommitted, getElem?_of_isPrefix (hr'.commit_le v) hlen', List.getElem?_take,
      if_pos hle']
  · obtain ⟨el, hel, helt, -, hlog⟩ := hr'.led hq hlead'
    refine hr'.has hq (List.prefix_refl _) (i := i) ?_
    have hheld := hr'.sound.history.decidedBy_held (hx.decidedBy hr.sound.history hdec)
      ⟨el, hel, helt⟩ (hm.term ▸ hterm)
    rw [hlog, getElem?_of_isPrefix hheld hlen, hat]

end Settled

/-- A call of the process has come to its results, and answers `True` for the entry `e`. -/
def AnswersTrue (p : Process) (e : LogEntry) : Prop :=
  ∃ id entries results, p.calls id = some (.submitResults entries) ∧
    (RaftNode.submitResults entries p.node).result = .ok results ∧ (e, true) ∈ entries.zip results

/-- **A write acknowledged is a write committed, exactly if the node retains it.**  When
`submit_commands` answers `True` for an entry, that entry is committed for good if and only if the
node still has the entry's term at the entry's index, or, of a compacted index, a member's files
have had it; otherwise another entry is committed there, and the write is lost. -/
theorem write_settled_iff {m : Members} {c c' : Cluster} (hc : Reachable m c) {v : NodeId}
    {p : Process} {e : LogEntry} (hp : c.process v = some p) (hans : AnswersTrue p e)
    (hl : Leads c c') : Settled c' v p.node.state.currentTerm e ↔ Retains m c p.node e := by
  obtain ⟨id, entries, results, hcall, hrun, he⟩ := hans
  obtain ⟨g, hr, -, hsub⟩ := hc.submitted
  obtain ⟨hmem, hlead, hle⟩ := submitResults_true hrun he
  obtain ⟨-, hlog⟩ := hsub v p id _ hp hcall e hmem
  obtain ⟨i, hi⟩ := List.mem_iff_getElem?.mp hlog
  have hidx := (hr.whole e.term).index hi
  have hm := (hr.up v p hp).mirrors
  have hcov : i < (g.peer v).commit := by
    have := hm.commit
    omega
  rw [hr.retains_iff hc hp hlog hidx hcov]
  refine ⟨fun hs => ?_, fun hat => hr.settled hp hlead hidx hcov hat hl⟩
  obtain ⟨-, -, -, -, -, hcc, -⟩ := hl.follows hr
  have hlen : i < ((g.peer v).log.take (g.peer v).commit).length := by
    rwa [List.length_take_of_le (hr.sound.peer v).commit_le]
  have := hs.committed
  rw [hidx, show ((i : Int) + 1 - 1).toNat = i by omega,
    getElem?_of_isPrefix ((hr.commit_le v).trans hcc) hlen, List.getElem?_take, if_pos hcov] at this
  exact this

/-! ## 5. A write that is settled, and one that is lost -/

/-- What the results of call `id` of `v` are about to be, with the entries it waits for. -/
def resultsOf (c : Cluster) (v : NodeId) (id : Nat) :
    Option (RaftNode × List LogEntry × Option (List Bool)) :=
  (c.process v).bind fun p =>
    match p.calls id with
    | some (.submitResults es) =>
      some (p.node, es, (RaftNode.submitResults es p.node).result.toOption)
    | _ => none

theorem AnswersTrue.of_resultsOf {c : Cluster} {v : NodeId} {id : Nat} {e : LogEntry}
    (h : (resultsOf c v id).map (·.2) = some ([e], some [true])) :
    ∃ p, c.process v = some p ∧ AnswersTrue p e := by
  obtain ⟨⟨n, es, results⟩, hres, heq⟩ := Option.map_eq_some_iff.mp h
  obtain ⟨p, hp, hres⟩ := Option.bind_eq_some_iff.mp hres
  obtain ⟨rfl, rfl⟩ := Prod.mk.inj heq
  refine ⟨p, hp, id, [e], [true], ?_⟩
  split at hres
  · rename_i es' hcall
    obtain ⟨-, rfl, hr⟩ : p.node = n ∧ es' = [e] ∧
        (RaftNode.submitResults es' p.node).result.toOption = some [true] := by
      simpa using hres
    refine ⟨hcall, ?_, by simp⟩
    rcases hrun : (RaftNode.submitResults [e] p.node).result with x | results
    · rw [hrun] at hr
      cases hr
    · rw [hrun] at hr
      exact congrArg Except.ok (Option.some.inj hr)
  · cases hres

/-- The first write of the first run. -/
def firstEntry : LogEntry := ⟨1, 1, { operation := .put, key := "x", value := some "1" }⟩

theorem write_settled_iff_firstWrite : ∃ p, afterFirstWrite.process "a" = some p ∧
    AnswersTrue p firstEntry ∧ ∀ {c'}, Leads afterFirstWrite c' →
      Settled c' "a" p.node.state.currentTerm firstEntry := by
  have hres : (resultsOf afterFirstWrite "a" 0).map (·.2) = some ([firstEntry], some [true]) := by
    decide +kernel
  have hret : ((afterFirstWrite.process "a").all fun p =>
      decide (p.node.log.termAt firstEntry.index = some firstEntry.term)) = true := by
    decide +kernel
  obtain ⟨p, hp, hans⟩ := AnswersTrue.of_resultsOf hres
  rw [hp] at hret
  exact ⟨p, hp, hans, fun hl => (write_settled_iff afterFirstWrite_reachable hp hans hl).mpr
    (Or.inl (of_decide_eq_true hret))⟩

/-- A leader takes a write and is cut off; another is elected, commits a write of its own at the
same index and passes it on; the first is elected again before it has answered. -/
def lostWrite : List Action := [
  .start "a" 1500, .start "b" 3000, .start "c" 3000,
  .elapse 1500,
  .run "a" (.tick 1500),
  .run "b" (.deliver 0 3000),
  .run "a" (.voteAnswer 0),
  .run "a" (.submitCommands [{ operation := .put, key := "x", value := some "1" }]),
  .run "a" (.lockReplication 0),
  .run "a" (.beginRound 0),
  .elapse 3000,
  .run "b" (.tick 1500),
  .run "c" (.deliver 3 3000),
  .run "b" (.voteAnswer 1),
  .run "b" (.submitCommands [{ operation := .put, key := "x", value := some "2" }]),
  .run "b" (.lockReplication 0),
  .run "b" (.beginRound 0),
  .run "b" (.submitTask 0 "c"),
  .run "b" (.workerBuild "c"),
  .run "c" (.deliver 4 3000),
  .run "b" (.workerAnswer "c" 2),
  .run "b" (.finishRound 0),
  .run "b" .replicateLog,
  .run "b" (.lockReplication 2),
  .run "b" (.beginRound 2),
  .run "b" (.submitTask 2 "a"),
  .run "b" (.workerBuild "a"),
  .run "a" (.deliver 5 1500),
  .elapse 1500,
  .run "a" (.tick 1500),
  .run "c" (.deliver 7 3000),
  .run "a" (.voteAnswer 4),
  .run "a" (.finishRound 0)]

theorem lostWrite_runs : ((Cluster.initial threeMembers).runs lostWrite).isSome = true := by
  decide +kernel

def afterLostWrite : Cluster := ((Cluster.initial threeMembers).runs lostWrite).get lostWrite_runs

/-- **A write is acknowledged and lost.** -/
theorem write_settled_fails : ¬ ∀ {m : Members} {c : Cluster} {v : NodeId} {p : Process}
    {e : LogEntry}, Reachable m c → c.process v = some p → AnswersTrue p e →
      Settled c v p.node.state.currentTerm e := by
  intro hall
  have hres : (resultsOf afterLostWrite "a" 0).map (·.2) = some ([firstEntry], some [true]) := by
    decide +kernel
  obtain ⟨p, hp, hans⟩ := AnswersTrue.of_resultsOf hres
  have hreach : Reachable threeMembers afterLostWrite :=
    runs_leads (Option.some_get lostWrite_runs).symm
  have hlost : afterLostWrite.committed[(firstEntry.index - 1).toNat]? ≠ some firstEntry := by
    decide +kernel
  exact hlost (hall hreach hp hans).committed

end PyRaftKv
