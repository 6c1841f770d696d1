/-
# Runs of the cluster

Every step of the cluster is a row of moves of one peer, or of none, so what a sound group
promises holds in every state of every run (`Refines.step`, `Reachable.refines`).
-/
import PyRaftKv.Refinement.Starting
import PyRaftKv.Refinement.Turns

open Consensus

namespace PyRaftKv

/-! ## 1. What is committed -/

/-- Of entries with consecutive indexes from `b + 1` on, those between two indexes. -/
theorem Contiguous.filter {a k : Nat} : ∀ {es : List LogEntry} {b : Nat}, Contiguous b es →
    (es.filter fun e => (a : Int) < e.index ∧ e.index ≤ (k : Int)) =
      (es.take (k - b)).drop (a - b)
  | [], b, _ => by simp
  | x :: xs, b, hc => by
    have hx : x.index = b + 1 := by simpa using hc 0 x rfl
    have hxs : Contiguous ((b + 1 : Nat) : Int) xs := fun i e he => by
      have := hc (i + 1) e he
      omega
    have ih := hxs.filter (a := a) (k := k)
    rcases Nat.lt_or_ge b k with hk | hk
    · rw [show k - b = (k - (b + 1)) + 1 by omega, List.take_succ_cons]
      rcases Nat.lt_or_ge b a with ha | ha
      · rw [List.filter_cons_of_neg (by simp only [decide_eq_true_eq]; omega), ih,
          show a - b = (a - (b + 1)) + 1 by omega, List.drop_succ_cons]
      · rw [List.filter_cons_of_pos (by simp only [decide_eq_true_eq]; omega), ih,
          show a - b = 0 by omega, show a - (b + 1) = 0 by omega]
        rfl
    · rw [List.filter_cons_of_neg (by simp only [decide_eq_true_eq]; omega), ih]
      simp [show k - b = 0 by omega, show k - (b + 1) = 0 by omega]

/-- **What a node's commit index newly covers** is what its committed log adds. -/
theorem newlyCommitted_eq {n : RaftNode} {p : PeerState} (hm : Mirrors n p) (hw : Whole p.log)
    {committed : List LogEntry} (hb : p.base ≤ committed.length) :
    Cluster.newlyCommitted committed n = (p.log.take p.commit).drop committed.length := by
  unfold Cluster.newlyCommitted
  rw [hm.log.entries, hm.commit]
  have hc : Contiguous (p.base : Int) (p.log.drop p.base) := by
    simpa using hw.contiguous.drop p.base
  rw [hc.filter, ← List.drop_take, List.drop_drop, Nat.add_sub_cancel' hb]

section Decided

variable {c : Cluster} {g : Grp} {v : NodeId} {h' : Hist} {p' : PeerState}

/-- Without a decision, what is decided stays the same. -/
theorem Refines.decided_same (hr : Refines c g) (hx : g.history.Extends h')
    (hdec : h'.decisions = g.history.decisions) (l : List LogEntry) :
    h'.Decided l ↔ l <+: c.committed := by
  rw [← hr.committed]
  refine or_congr Iff.rfl ⟨?_, ?_⟩
  · rintro ⟨d, hd, hl⟩
    rw [hdec] at hd
    obtain ⟨hel, hlen⟩ := hr.sound.history.decision_elected hd
    exact ⟨d, hd, by rwa [hx.take_leader hel hlen] at hl⟩
  · rintro ⟨d, hd, hl⟩
    obtain ⟨hel, hlen⟩ := hr.sound.history.decision_elected hd
    exact ⟨d, hx.decisions hd, by rwa [hx.take_leader hel hlen]⟩

/-- **The committed log grows by what a decision adds**, and by nothing where there is none. -/
theorem Refines.decided_after (hr : Refines c g) (hx : g.history.Extends h')
    (hs' : h'.Sound c.members.quorums) (hp' : p'.Sound h' v) (hw : ∀ t, Whole (h'.leaderLog t))
    {n' : RaftNode} (hm : Mirrors n' p') (hb : p'.base ≤ c.committed.length)
    (hdec : h'.decisions = g.history.decisions ∨ p'.role = .leader ∧
      ∃ R, h'.decisions = insert ⟨p'.term, p'.commit, R⟩ g.history.decisions)
    (l : List LogEntry) :
    h'.Decided l ↔ l <+: c.committed ++ Cluster.newlyCommitted c.committed n' := by
  rw [newlyCommitted_eq hm (Whole.of_traced hw hp'.traced) hb]
  have hcd : h'.Decided c.committed :=
    hx.decided hr.sound.history ((hr.committed _).mpr (List.prefix_refl _))
  have hpd : h'.Decided (p'.log.take p'.commit) := by
    obtain ⟨u, hu, -⟩ := hp'.decided
    exact hu.decided
  have hlen : (p'.log.take p'.commit).length = p'.commit := List.length_take_of_le hp'.commit_le
  -- the new committed log is the longer one of the old and the node's
  obtain ⟨hold, hnew, hone⟩ : c.committed <+: c.committed ++
        (p'.log.take p'.commit).drop c.committed.length ∧
      p'.log.take p'.commit <+: c.committed ++ (p'.log.take p'.commit).drop c.committed.length ∧
      h'.Decided (c.committed ++ (p'.log.take p'.commit).drop c.committed.length) := by
    rcases hs'.decided_comparable hcd hpd with hle | hle
    · rw [← List.prefix_append_drop hle]
      exact ⟨hle, List.prefix_refl _, hpd⟩
    · rw [List.drop_eq_nil_of_le hle.length_le, List.append_nil]
      exact ⟨List.prefix_refl _, hle, hcd⟩
  constructor
  · intro hl
    rcases hl with rfl | ⟨d, hd, hl⟩
    · exact List.nil_prefix
    have hcase : d ∈ g.history.decisions ∨ p'.role = .leader ∧ d.term = p'.term ∧
        d.index = p'.commit := by
      rcases hdec with hdec | ⟨hlead, R, hdec⟩
      · exact Or.inl (hdec ▸ hd)
      · rw [hdec] at hd
        rcases hd with rfl | hd
        · exact Or.inr ⟨hlead, rfl, rfl⟩
        · exact Or.inl hd
    rcases hcase with hd | ⟨hlead, ht, hi⟩
    · obtain ⟨hel, hlen⟩ := hr.sound.history.decision_elected hd
      rw [hx.take_leader hel hlen] at hl
      exact ((hr.committed l).mp (Or.inr ⟨d, hd, hl⟩)).trans hold
    · obtain ⟨e, -, -, -, hlog, -⟩ := hp'.leader hlead
      rw [ht, hi, ← hlog] at hl
      exact hl.trans hnew
  · exact fun hl => hone.of_isPrefix hl

/-- What a member knows committed is in the committed log. -/
theorem Refines.commit_le (hr : Refines c g) (v : NodeId) :
    (g.peer v).log.take (g.peer v).commit <+: c.committed :=
  (hr.committed _).mp (hr.sound.commit_decided v)

theorem Refines.commit_le_length (hr : Refines c g) (v : NodeId) :
    (g.peer v).commit ≤ c.committed.length := by
  have := (hr.commit_le v).length_le
  rwa [List.length_take_of_le (hr.sound.peer v).commit_le] at this

/-- The boundary a turn leaves is committed before it. -/
theorem Promised.base_le (hr : Refines c g) {p : Process} {op : Op} {t : Turn} {lost : Nat → Prop}
    (hpr : Promised c g v op p t lost h' p') : p'.base ≤ c.committed.length := by
  have hmv := hpr.lawful.moves.sound hr.sound.history (hr.sound.peer v)
  rcases hpr.decisions with hdec | ⟨-, -, -, hbase, -⟩
  · obtain ⟨u, hu, -⟩ := hmv.peer.decided
    have := ((hr.decided_same hmv.longer hdec _).mp hu.decided).length_le
    rw [List.length_take_of_le hmv.peer.commit_le] at this
    exact hmv.peer.base_le.trans this
  · rw [hbase]
    exact (hr.sound.peer v).base_le.trans (hr.commit_le_length v)

end Decided

/-! ## 2. One step -/

section Steps

variable {c c' : Cluster} {g : Grp} {v : NodeId} {p : Process} {op : Op} {t : Turn}
  {lost : Nat → Prop} {h' : Hist} {p' : PeerState}

/-- The members that do not move keep their place. -/
theorem Refines.others (hr : Refines c g) (hx : g.history.Extends h') {u : NodeId} {q : Process}
    (hu : u ≠ v) (hq : c.process u = some q) :
    Up c.members u q.node (c.disk u) ((g.act v h' p').peer u) h' := by
  rw [Group.act_peer_of_ne hu]
  exact (hr.up u q hq).extend hx.ballots hx.acks

/-- What was answered before stays true. -/
theorem Refines.answered (hr : Refines c g)
    (hms : Moves c.members.quorums v g.history (g.peer v) h' p') (sends : List Rpc) :
    ∀ a ∈ c.answers, ∃ rpc, (c.rpcs ++ sends)[a.rpc]? = some rpc ∧ Answered h' rpc a.response ∧
      a.response.term ≤ ((g.act v h' p').peer rpc.target).term := by
  intro a ha
  obtain ⟨rpc, hrpc, hans, hterm⟩ := hr.answers a ha
  refine ⟨rpc, ?_, hans.extend (hr.sound.act hms).2, ?_⟩
  · exact getElem?_mono (List.prefix_append _ _) hrpc
  · by_cases hv : rpc.target = v
    · rw [hv, Group.act_peer_self]
      exact (hv ▸ hterm).trans hms.term_le
    · rwa [Group.act_peer_of_ne hv]

/-- Who was elected stays so. -/
theorem Refines.elected (hr : Refines c g) (hx : g.history.Extends h') :
    ∀ l ∈ c.leaders, ∃ e ∈ h'.elections, e.term = l.1 ∧ e.leader = l.2 := by
  intro l hl
  obtain ⟨e, he, hrest⟩ := hr.leaders l hl
  exact ⟨e, hx.elections.subset he, hrest⟩

/-- **A turn to its end.** -/
theorem Refines.finish (hr : Refines c g) (hp : c.process v = some p)
    (hpr : Promised c g v op p t lost h' p') : Refines (c.finish v op t) (g.act v h' p') := by
  have hla := hpr.lawful
  obtain ⟨hsound, hx⟩ := hr.sound.act hla.moves
  have hlive := hla.live (hr.live hp)
  constructor
  · exact hsound
  · exact hla.whole
  · intro u q hq
    by_cases hu : u = v
    · subst hu
      rw [Cluster.finish_process_self] at hq
      cases hq
      rw [Cluster.finish_disk_self, Group.act_peer_self]
      exact hla.up
    · rw [Cluster.finish_process_of_ne _ _ _ hu] at hq
      rw [Cluster.finish_disk_of_ne _ _ _ hu]
      exact hr.others hx hu hq
  · intro u hq
    by_cases hu : u = v
    · subst hu
      rw [Cluster.finish_process_self] at hq
      cases hq
    · rw [Cluster.finish_process_of_ne _ _ _ hu] at hq
      rw [Cluster.finish_disk_of_ne _ _ _ hu, Group.act_peer_of_ne hu]
      exact hr.down u hq
  · intro u q f rpc request hq hw
    change (c.rpcs ++ t.sends.map fun s => (⟨v, s.1, s.2⟩ : Rpc))[rpc]? = _
    have hold : ∀ {x}, c.rpcs[rpc]? = some x →
        (c.rpcs ++ t.sends.map fun s => (⟨v, s.1, s.2⟩ : Rpc))[rpc]? = some x := fun hx => by
      exact getElem?_mono (List.prefix_append _ _) hx
    by_cases hu : u = v
    · subst hu
      rw [Cluster.finish_process_self] at hq
      cases hq
      rcases hpr.waiting f rpc request hw with hw | ⟨rfl, hsend⟩
      · exact hold (hr.waiting u p f rpc request hp hw)
      · rw [hsend]
        simp
    · rw [Cluster.finish_process_of_ne _ _ _ hu] at hq
      exact hold (hr.waiting u q f rpc request hq hw)
  · intro rpc hmem
    rcases List.mem_append.mp hmem with hmem | hmem
    · exact (hr.rpcs rpc hmem).extend hx hr.sound.history
    · obtain ⟨s, hs, rfl⟩ := List.mem_map.mp hmem
      exact hpr.sends s hs
  · intro a ha
    rcases List.mem_append.mp ha with ha | ha
    · exact hr.answered hla.moves _ a ha
    · obtain ⟨rpc, hrpc, htarget, hans, -, hterm⟩ := hpr.answer a (Option.mem_toList.mp ha)
      refine ⟨rpc, ?_, hans, ?_⟩
      · change (c.rpcs ++ _)[a.rpc]? = _
        exact getElem?_mono (List.prefix_append _ _) hrpc
      · rw [htarget, Group.act_peer_self]
        exact hterm.le
  · intro l hl
    have hl : l ∈ if t.process.node.state.role = .leader ∧
        (t.process.node.state.currentTerm, v) ∉ c.leaders then
        c.leaders ++ [(t.process.node.state.currentTerm, v)] else c.leaders := hl
    split at hl
    · rename_i hlead
      rcases List.mem_append.mp hl with hl | hl
      · exact hr.elected hx l hl
      · obtain rfl := List.mem_singleton.mp hl
        have hm := hlive.mirrors
        obtain ⟨e, he, het, hev, -⟩ := hlive.peer.leader (by rw [hm.role, hlead.1]; rfl)
        exact ⟨e, he, het.trans hm.term, hev⟩
    · exact hr.elected hx l hl
  · intro l
    change _ ↔ l <+: if Cluster.Op.advances op = true then _ else _
    split
    · exact hr.decided_after hx hlive.history hlive.peer hla.whole hlive.mirrors
        (hpr.base_le hr) (hpr.decisions.imp_right fun h => ⟨h.2.2.1, h.2.2.2.2⟩) l
    · rename_i hadv
      exact hr.decided_same hx (hpr.decisions.resolve_right fun h => hadv h.1) l

/-- **A member that goes down** with what is on its disk. -/
theorem Refines.fall (hr : Refines c g)
    (hms : Moves c.members.quorums v g.history (g.peer v) h' p')
    (hw : ∀ t, Whole (h'.leaderLog t)) {ws : List Write} (hd : OnDisk ((c.disk v).writes ws) p')
    (hrole : p'.role = .follower) {committed : List LogEntry}
    (hc : ∀ l, h'.Decided l ↔ l <+: committed) :
    Refines { c.down v ws with committed } (g.act v h' p') := by
  obtain ⟨hsound, hx⟩ := hr.sound.act hms
  constructor
  · exact hsound
  · exact hw
  · intro u q (hq : (c.down v ws).process u = some q)
    have hu : u ≠ v := by
      rintro rfl
      rw [Cluster.down_process_self] at hq
      cases hq
    rw [Cluster.down_process_of_ne _ _ hu] at hq
    change Up _ _ _ ((c.down v ws).disk u) _ _
    rw [Cluster.down_disk_of_ne _ _ hu]
    exact hr.others hx hu hq
  · intro u (hq : (c.down v ws).process u = none)
    change OnDisk ((c.down v ws).disk u) _ ∧ _
    by_cases hu : u = v
    · subst hu
      rw [Cluster.down_disk_self, Group.act_peer_self]
      exact ⟨hd, hrole⟩
    · rw [Cluster.down_process_of_ne _ _ hu] at hq
      rw [Cluster.down_disk_of_ne _ _ hu, Group.act_peer_of_ne hu]
      exact hr.down u hq
  · intro u q f rpc request (hq : (c.down v ws).process u = some q) hwait
    have hu : u ≠ v := by
      rintro rfl
      rw [Cluster.down_process_self] at hq
      cases hq
    rw [Cluster.down_process_of_ne _ _ hu] at hq
    exact hr.waiting u q f rpc request hq hwait
  · exact fun rpc hmem => (hr.rpcs rpc hmem).extend hx hr.sound.history
  · intro a ha
    have := hr.answered hms [] a ha
    rwa [List.append_nil] at this
  · exact hr.elected hx
  · exact hc

/-- **A member that has started** is up as the peer it was on disk. -/
theorem Refines.rise (hr : Refines c g) {n : RaftNode} {ws : List Write}
    (hup : Up c.members v n ((c.disk v).writes ws) (g.peer v) g.history) :
    Refines { c.down v ws with process := Function.update c.process v (some { node := n }) } g := by
  constructor
  · exact hr.sound
  · exact hr.whole
  · intro u q (hq : Function.update c.process v (some { node := n }) u = some q)
    change Up _ _ _ ((c.down v ws).disk u) _ _
    by_cases hu : u = v
    · subst hu
      rw [Function.update_self] at hq
      cases hq
      rw [Cluster.down_disk_self]
      exact hup
    · rw [Function.update_of_ne hu] at hq
      rw [Cluster.down_disk_of_ne _ _ hu]
      exact hr.up u q hq
  · intro u (hq : Function.update c.process v (some { node := n }) u = none)
    have hu : u ≠ v := by
      rintro rfl
      rw [Function.update_self] at hq
      cases hq
    rw [Function.update_of_ne hu] at hq
    change OnDisk ((c.down v ws).disk u) _ ∧ _
    rw [Cluster.down_disk_of_ne _ _ hu]
    exact hr.down u hq
  · intro u q f rpc request (hq : Function.update c.process v (some { node := n }) u = some q) hw
    by_cases hu : u = v
    · subst hu
      rw [Function.update_self] at hq
      cases hq
      obtain ⟨id, hw⟩ := hw
      cases hw
    · rw [Function.update_of_ne hu] at hq
      exact hr.waiting u q f rpc request hq hw
  · exact hr.rpcs
  · exact hr.answers
  · exact hr.leaders
  · exact hr.committed

/-- How the group goes on with one step of the cluster. -/
inductive Moved (c : Cluster) (g : Grp) : Action → Cluster → Grp → Prop
  | elapse (ms : Nat) : Moved c g (.elapse ms) { c with now := c.now + ms } g
  | start {v : NodeId} {timeout : Nat} {n : RaftNode} {ws : List Write}
      (hdown : c.process v = none)
      (hinit : RaftNode.init v c.members (c.disk v) ⟨c.now, timeout⟩ = ⟨.ok n, ws⟩)
      (hup : Up c.members v n ((c.disk v).writes ws) (g.peer v) g.history)
      (hread : n.lastReadQuorumTime = none) :
      Moved c g (.start v timeout)
        { c.down v ws with process := Function.update c.process v (some { node := n }) } g
  | run {v : NodeId} {op : Op} {p : Process} {t : Turn} {h' : Hist} {p' : PeerState}
      (hp : c.process v = some p) (ht : p.turn c v op = some t)
      (hpr : Promised c g v op p t (Lost c g.history (g.peer v) op) h' p') :
      Moved c g (.run v op) (c.finish v op t) (g.act v h' p')
  | fall {a : Action} {v : NodeId} {ws : List Write} {h' : Hist} {p' : PeerState}
      {committed : List LogEntry} (hrun : ∀ u op, a ≠ .run u op)
      (hms : Moves c.members.quorums v g.history (g.peer v) h' p')
      (hw : ∀ t, Whole (h'.leaderLog t)) (hd : OnDisk ((c.disk v).writes ws) p')
      (hrole : p'.role = .follower) (hc : ∀ l, h'.Decided l ↔ l <+: committed)
      (hcasts : Casts v g.history h' p')
      (hkept : Keeps
        (fun i => ∃ op k, k ≠ 0 ∧ a = .crash v op k ∧ Lost c g.history (g.peer v) op i)
        (g.peer v).log p'.log) :
      Moved c g a { c.down v ws with committed } (g.act v h' p')

theorem Moved.refines {a : Action} {g' : Grp} (hr : Refines c g) (hmv : Moved c g a c' g') :
    Refines c' g' := by
  cases hmv with
  | elapse ms => exact { hr with }
  | start _ _ hup => exact hr.rise hup
  | run hp ht hpr => exact hr.finish hp hpr
  | fall hrun hms hw hd hrole hc => exact hr.fall hms hw hd hrole hc

/-- A crash within a turn. -/
theorem Refines.crash (hr : Refines c g) (hp : c.process v = some p)
    (ht : p.turn c v op = some t) (effects : Nat) :
    ∃ g', Moved c g (.crash v op effects)
      { c.down v (t.writes.take effects) with
        committed := if Cluster.Op.advances op ∧ effects ≠ 0 then
          c.committed ++ Cluster.newlyCommitted c.committed t.process.node else
            c.committed } g' := by
  obtain ⟨h', p', hpr⟩ := turn_promised hr hp ht
  have hla := hpr.lawful
  have hlive := hla.live (hr.live hp)
  have hx := (hr.sound.act hla.moves).2
  have hafter := hr.decided_after hx hlive.history hlive.peer hla.whole hlive.mirrors
    (hpr.base_le hr) (hpr.decisions.imp_right fun h => ⟨h.2.2.1, h.2.2.2.2⟩)
  rcases Nat.eq_zero_or_pos effects with rfl | hpos
  · -- nothing is on disk yet
    refine ⟨g.act v g.history { g.peer v with role := .follower }, .fall (by simp)
      (Moves.refl.stepDown) hr.whole ((hr.live hp).onDisk.role _) rfl (fun l => ?_) (.of_eq rfl)
      (Keeps.refl _ _)⟩
    rw [if_neg fun h => h.2 rfl]
    exact hr.committed l
  have hpos : effects ≠ 0 := Nat.ne_of_gt hpos
  rcases Nat.lt_or_ge effects t.writes.length with hlt | hge
  · -- some effects are missing, and with them any decision
    obtain ⟨h'', p'', hcr, hdec⟩ := hla.crash effects hlt
    have hx'' := (hr.sound.act hcr.moves).2
    refine ⟨g.act v h'' { p'' with role := .follower }, .fall (by simp) hcr.moves.stepDown hcr.whole
      (hcr.disk.role _) rfl (fun l => ?_) hcr.casts fun i e he => (hcr.kept i e he).imp_right
      fun hl => ⟨op, effects, hpos, rfl, hl⟩⟩
    split
    · rename_i hadv
      have hsingle : t.writes.length ≤ 1 := by
        obtain ⟨i, rfl⟩ : ∃ i, op = .finishRound i := by
          cases op <;> simp [Cluster.Op.advances] at hadv ⊢
        exact finishRound_single hr hp ht
      omega
    · exact hr.decided_same hx'' hdec l
  · rw [List.take_of_length_le hge]
    refine ⟨g.act v h' { p' with role := .follower }, .fall (by simp) hla.moves.stepDown hla.whole
      (hlive.onDisk.role _) rfl (fun l => ?_) hla.casts fun i e he => (hla.kept i e he).imp_right
      fun hl => ⟨op, effects, hpos, rfl, hl⟩⟩
    split
    · exact hafter l
    · rename_i hadv
      refine hr.decided_same hx (hpr.decisions.resolve_right fun h => hadv ⟨h.1, ?_⟩) l
      rintro rfl
      exact h.2.1 (List.length_eq_zero_iff.mp (Nat.le_zero.mp hge))

/-- **Every step of the cluster moves its group.** -/
theorem Refines.step (hr : Refines c g) {a : Action} (hs : c.step a = some c') :
    ∃ g', Moved c g a c' g' := by
  have hsame : (∀ u op, a ≠ .run u op) → ∀ {v}, c.process v = none → ∀ {ws : List Write},
      OnDisk ((c.disk v).writes ws) (g.peer v) → ∃ g', Moved c g a (c.down v ws) g' := by
    intro hrun v hdown ws hd
    have hmv : Moved c g a { c.down v ws with committed := c.committed } _ :=
      .fall hrun .refl hr.whole hd (hr.down _ hdown).2 hr.committed (.of_eq rfl)
        (Keeps.refl _ _)
    exact ⟨_, hmv⟩
  rcases a with ms | ⟨v, timeout⟩ | ⟨v, timeout, effects⟩ | ⟨v, op⟩ | ⟨v, op, effects⟩
  · cases hs
    exact ⟨g, .elapse ms⟩
  · simp only [Cluster.step] at hs
    split at hs
    · cases hs
    rename_i hdown
    obtain ⟨hdisk, hrole⟩ := hr.down v hdown
    split at hs
    · by_cases hv : v ∈ c.members
      · obtain ⟨n, ws, hinit, hup, -, -, hread, -⟩ := init_recovers hdisk hv hrole (hr.sound.peer v)
          (Whole.of_traced hr.whole (hr.sound.peer v).traced) ⟨c.now, timeout⟩
        simp only [hinit] at hs
        cases hs
        exact ⟨g, .start hdown hinit hup hread⟩
      · simp only [RaftNode.init, hv, not_false_eq_true, if_true] at hs
        cases hs
        exact hsame (by simp) hdown hdisk
    · cases hs
  · simp only [Cluster.step] at hs
    split at hs
    · cases hs
    rename_i hdown
    obtain ⟨hdisk, hrole⟩ := hr.down v hdown
    cases hs
    by_cases hv : v ∈ c.members
    · obtain ⟨n, ws, hinit, -, -, -, -, hcrash⟩ := init_recovers hdisk hv hrole (hr.sound.peer v)
        (Whole.of_traced hr.whole (hr.sound.peer v).traced) ⟨c.now, timeout⟩
      rw [hinit]
      exact hsame (by simp) hdown (hcrash effects)
    · simp only [RaftNode.init, hv, not_false_eq_true, if_true, List.take_nil]
      exact hsame (by simp) hdown hdisk
  · simp only [Cluster.step] at hs
    split at hs
    · cases hs
    rename_i p hp
    obtain ⟨t, ht, rfl⟩ := Option.map_eq_some_iff.mp hs
    obtain ⟨h', p', hpr⟩ := turn_promised hr hp ht
    exact ⟨_, .run hp ht hpr⟩
  · simp only [Cluster.step] at hs
    split at hs
    · cases hs
    rename_i p hp
    obtain ⟨t, ht, rfl⟩ := Option.map_eq_some_iff.mp hs
    exact hr.crash hp ht effects

end Steps

/-! ## 3. What one step keeps -/

namespace Moved

variable {c c' : Cluster} {g g' : Grp} {a : Action}

theorem members (hmv : Moved c g a c' g') : c'.members = c.members := by
  cases hmv <;> rfl

theorem longer (hr : Refines c g) (hmv : Moved c g a c' g') :
    g.history.Extends g'.history := by
  cases hmv with
  | elapse ms => exact .refl _
  | start => exact .refl _
  | run hp ht hpr => exact (hr.sound.act hpr.lawful.moves).2
  | fall _ hms => exact (hr.sound.act hms).2

theorem term_le (hmv : Moved c g a c' g') (u : NodeId) : (g.peer u).term ≤ (g'.peer u).term := by
  cases hmv with
  | elapse ms => exact le_rfl
  | start => exact le_rfl
  | @run v _ _ _ _ _ hp ht hpr =>
    by_cases hu : u = v
    · subst hu
      rw [Group.act_peer_self]
      exact hpr.lawful.moves.term_le
    · rw [Group.act_peer_of_ne hu]
  | @fall _ v _ _ _ _ _ hms =>
    by_cases hu : u = v
    · subst hu
      rw [Group.act_peer_self]
      exact hms.term_le
    · rw [Group.act_peer_of_ne hu]

theorem commit_le (hmv : Moved c g a c' g') (u : NodeId) :
    (g.peer u).commit ≤ (g'.peer u).commit := by
  cases hmv with
  | elapse ms => exact le_rfl
  | start => exact le_rfl
  | @run v _ _ _ _ _ hp ht hpr =>
    by_cases hu : u = v
    · subst hu
      rw [Group.act_peer_self]
      exact hpr.lawful.moves.commit_le
    · rw [Group.act_peer_of_ne hu]
  | @fall _ v _ _ _ _ _ hms =>
    by_cases hu : u = v
    · subst hu
      rw [Group.act_peer_self]
      exact hms.commit_le
    · rw [Group.act_peer_of_ne hu]

theorem base_le (hmv : Moved c g a c' g') (u : NodeId) : (g.peer u).base ≤ (g'.peer u).base := by
  cases hmv with
  | elapse ms => exact le_rfl
  | start => exact le_rfl
  | @run v _ _ _ _ _ hp ht hpr =>
    by_cases hu : u = v
    · subst hu
      rw [Group.act_peer_self]
      exact hpr.lawful.moves.base_le
    · rw [Group.act_peer_of_ne hu]
  | @fall _ v _ _ _ _ _ hms =>
    by_cases hu : u = v
    · subst hu
      rw [Group.act_peer_self]
      exact hms.base_le
    · rw [Group.act_peer_of_ne hu]

/-- A ballot is cast in the term its voter then is in. -/
theorem casts (hmv : Moved c g a c' g') : ∀ b ∈ g'.history.ballots,
    b ∈ g.history.ballots ∨ b.term = (g'.peer b.voter).term := by
  intro b hb
  cases hmv with
  | elapse ms => exact Or.inl hb
  | start => exact Or.inl hb
  | run hp ht hpr =>
    refine (hpr.lawful.casts b hb).imp_right fun ⟨hv, ht⟩ => ?_
    rw [hv, Group.act_peer_self, ht]
  | fall _ _ _ _ _ _ hcasts =>
    refine (hcasts b hb).imp_right fun ⟨hv, ht⟩ => ?_
    rw [hv, Group.act_peer_self, ht]

/-- A turn that is run to its end. -/
theorem run_inv {v : NodeId} {op : Op} (hmv : Moved c g (.run v op) c' g') :
    ∃ p t h' p', c.process v = some p ∧ p.turn c v op = some t ∧
      Promised c g v op p t (Lost c g.history (g.peer v) op) h' p' ∧
      c' = c.finish v op t ∧ g' = g.act v h' p' := by
  cases hmv with
  | run hp ht hpr => exact ⟨_, _, _, _, hp, ht, hpr, rfl, rfl⟩
  | fall hrun => exact absurd rfl (hrun v op)

/-- **What a member holds it keeps**, but for what a leader's request takes away. -/
theorem kept (hmv : Moved c g a c' g') (u : NodeId) :
    Keeps (fun i => ∃ op, (a = .run u op ∨ ∃ k, k ≠ 0 ∧ a = .crash u op k) ∧
      Lost c g.history (g.peer u) op i) (g.peer u).log (g'.peer u).log := by
  cases hmv with
  | elapse ms => exact Keeps.refl _ _
  | start => exact Keeps.refl _ _
  | @run v op _ _ _ _ hp ht hpr =>
    by_cases hu : u = v
    · subst hu
      rw [Group.act_peer_self]
      exact fun i e he => (hpr.lawful.kept i e he).imp_right fun hl => ⟨op, Or.inl rfl, hl⟩
    · rw [Group.act_peer_of_ne hu]
      exact Keeps.refl _ _
  | @fall _ v _ _ _ _ _ _ _ _ _ _ _ hkept =>
    by_cases hu : u = v
    · subst hu
      rw [Group.act_peer_self]
      exact fun i e he => (hkept i e he).imp_right
        fun ⟨op, k, hk, ha, hl⟩ => ⟨op, Or.inr ⟨k, hk, ha⟩, hl⟩
    · rw [Group.act_peer_of_ne hu]
      exact Keeps.refl _ _

/-- The committed log only grows. -/
theorem committed (hr : Refines c g) (hmv : Moved c g a c' g') : c.committed <+: c'.committed :=
  ((hmv.refines hr).committed _).mp ((hmv.longer hr).decided hr.sound.history
    ((hr.committed _).mpr (List.prefix_refl _)))

end Moved

/-! ## 4. Runs -/

theorem initial_refines (m : Members) : Refines (Cluster.initial m) Group.initial where
  sound := Group.initial_sound
  whole _ := Whole.nil
  up v p hp := nomatch hp
  down v _ := by
    refine ⟨⟨rfl, rfl, rfl, ⟨rfl, rfl, Replays.nil⟩, {}, {}, rfl, le_rfl, rfl, ?_⟩, rfl⟩
    exact Shows.full rfl
  waiting v p f rpc request hp := nomatch hp
  rpcs rpc hmem := nomatch hmem
  answers a hmem := nomatch hmem
  leaders l hmem := nomatch hmem
  committed l := by
    change l = [] ∨ _ ↔ l <+: []
    rw [List.prefix_nil]
    exact ⟨fun h => h.resolve_right fun ⟨d, hd, _⟩ => hd.elim, Or.inl⟩

namespace Cluster

/-- A list of actions that are all possible is a run. -/
theorem runs_leads : ∀ {as : List Action} {c c' : Cluster}, c.runs as = some c' → Leads c c'
  | [], c, c', h => by
    cases h
    exact .refl
  | a :: as, c, c', h => by
    obtain ⟨c₁, hstep, hrest⟩ := Option.bind_eq_some_iff.mp h
    exact .head ⟨a, hstep⟩ (runs_leads hrest)

/-- **What every step keeps, every run keeps**, for a group the run itself builds up. -/
theorem Leads.invariant {I : Cluster → Grp → Prop}
    (hstep : ∀ {c g a c' g'}, Refines c g → I c g → Moved c g a c' g' → I c' g')
    {c c' : Cluster} {g : Grp} (hr : Refines c g) (hi : I c g) (hl : Leads c c') :
    ∃ g', Refines c' g' ∧ I c' g' := by
  induction hl with
  | refl => exact ⟨g, hr, hi⟩
  | tail _ hs ih =>
    obtain ⟨g₁, hr₁, hi₁⟩ := ih
    obtain ⟨a, hs⟩ := hs
    obtain ⟨g₂, hmv⟩ := hr₁.step hs
    exact ⟨g₂, hmv.refines hr₁, hstep hr₁ hi₁ hmv⟩

/-- A run only adds to the history of its group, and to what is committed. -/
theorem Leads.follows {c c' : Cluster} {g : Grp} (hr : Refines c g) (hl : Leads c c') :
    ∃ g', Refines c' g' ∧ c'.members = c.members ∧ g.history.Extends g'.history ∧
      (∀ u, (g.peer u).term ≤ (g'.peer u).term) ∧ c.committed <+: c'.committed ∧
      ∀ u, (g.peer u).commit ≤ (g'.peer u).commit ∧ (g.peer u).base ≤ (g'.peer u).base := by
  refine hl.invariant (I := fun c' g' => c'.members = c.members ∧
    g.history.Extends g'.history ∧ (∀ u, (g.peer u).term ≤ (g'.peer u).term) ∧
    c.committed <+: c'.committed ∧
    ∀ u, (g.peer u).commit ≤ (g'.peer u).commit ∧ (g.peer u).base ≤ (g'.peer u).base) ?_ hr
    ⟨rfl, .refl _, fun _ => le_rfl, List.prefix_refl _, fun _ => ⟨le_rfl, le_rfl⟩⟩
  rintro c₁ g₁ a c₂ g₂ hr₁ ⟨hm, hx, ht, hc, hk⟩ hmv
  exact ⟨hmv.members.trans hm, hx.trans (hmv.longer hr₁), fun u => (ht u).trans (hmv.term_le u),
    hc.trans (hmv.committed hr₁),
    fun u => ⟨(hk u).1.trans (hmv.commit_le u), (hk u).2.trans (hmv.base_le u)⟩⟩

/-- **Every reachable state is a sound group.** -/
theorem Reachable.refines {m : Members} {c : Cluster} (hc : Reachable m c) :
    ∃ g, Refines c g ∧ c.members = m := by
  obtain ⟨g, hr, hm, -⟩ := Leads.follows (initial_refines m) hc
  exact ⟨g, hr, hm⟩

end Cluster

/-! ## 5. A run to look at -/

/-- One of them is elected, takes a write and copies it to another. -/
def firstRound : List Action := [
  .start "a" 1500, .start "b" 3000, .start "c" 3000,
  .elapse 1500,
  .run "a" (.tick 1500),
  .run "b" (.deliver 0 3000),
  .run "a" (.voteAnswer 0),
  .run "a" (.submitCommands [{ operation := .put, key := "x", value := some "1" }]),
  .run "a" (.lockReplication 0),
  .run "a" (.beginRound 0),
  .run "a" (.submitTask 0 "b"),
  .run "a" (.workerBuild "b"),
  .run "b" (.deliver 2 3000),
  .run "a" (.workerAnswer "b" 1)]

/-- It commits the write. -/
def firstCommit : Action := .run "a" (.finishRound 0)

theorem firstRound_runs : ((Cluster.initial threeMembers).runs firstRound).isSome = true := by
  decide +kernel

def afterFirstRound : Cluster :=
  ((Cluster.initial threeMembers).runs firstRound).get firstRound_runs

theorem firstCommit_steps : (afterFirstRound.step firstCommit).isSome = true := by decide +kernel

def afterFirstWrite : Cluster := (afterFirstRound.step firstCommit).get firstCommit_steps

theorem afterFirstRound_reachable : Cluster.Reachable threeMembers afterFirstRound :=
  Cluster.runs_leads (Option.some_get firstRound_runs).symm

theorem afterFirstRound_step : afterFirstRound.step firstCommit = some afterFirstWrite :=
  (Option.some_get firstCommit_steps).symm

theorem afterFirstWrite_reachable : Cluster.Reachable threeMembers afterFirstWrite :=
  afterFirstRound_reachable.tail ⟨_, afterFirstRound_step⟩

end PyRaftKv
