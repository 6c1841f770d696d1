/-
# Starting again

A member that is down, wherever among its durable effects it stopped, starts again and keeps what
it had promised: `restart_keeps_promises`.

What it had promised an entry is the delicate part.  A member gives an entry up only for a request
of a leader that it does not refuse and that conflicts with it, and only if it does not crash before
anything of that is on its disk (`Displaces`).  So an entry it acknowledged is there after the start
if no leader has replaced it in between in this way.
-/
import PyRaftKv.Guarantees.Agreement

open Consensus

namespace PyRaftKv

open Cluster

/-! ## 1. What takes an entry away -/

/-- A leader's request that node `n` does not refuse: its term is not an old one, and the check of
the entry before the window, or of what is committed beyond the snapshot, does not fail. -/
def Passes (n : RaftNode) : Request → Prop
  | .appendEntries r => n.state.currentTerm ≤ r.term ∧ r.prevLogIndex ≤ n.log.lastIndex ∧
      n.log.termAt r.prevLogIndex = some r.prevLogTerm
  | .installSnapshot r => n.state.currentTerm ≤ r.term ∧ n.log.baseIndex ≤ r.lastIncludedIndex ∧
      (r.lastIncludedIndex < n.state.commitIndex →
        n.log.termAt r.lastIncludedIndex = some r.lastIncludedTerm)
  | _ => False

/-- It conflicts with the entry `e` of node `n`: it has another entry at or below it, or a snapshot
that leaves it out. -/
def Conflicts (n : RaftNode) (committed : List LogEntry) (e : LogEntry) : Request → Prop
  | .appendEntries r => ∃ x ∈ n.log.entries, x.index ≤ e.index ∧
      ∃ y ∈ r.entries, y.index = x.index ∧ y.term ≠ x.term
  | .installSnapshot r =>
      r.lastIncludedIndex < e.index ∧
          n.log.termAt r.lastIncludedIndex ≠ some r.lastIncludedTerm ∨
        e.index ≤ r.lastIncludedIndex ∧ committed[(e.index - 1).toNat]? ≠ some e
  | _ => False

/-- The action delivers such a request to member `v`, which handles it to its end, or crashes with
at least one effect of the handler on its disk. -/
def Displaces (c : Cluster) (v : NodeId) (e : LogEntry) (a : Action) : Prop :=
  ∃ i timeout rpc p, (a = .run v (.deliver i timeout) ∨
      ∃ effects, effects ≠ 0 ∧ a = .crash v (.deliver i timeout) effects) ∧
    c.rpcs[i]? = some rpc ∧ c.process v = some p ∧ Passes p.node rpc.request ∧
    Conflicts p.node c.committed e rpc.request

/-- A run in which no leader takes the entry away so. -/
def Undisplaced (v : NodeId) (e : LogEntry) : Cluster → Cluster → Prop :=
  Relation.ReflTransGen fun c c' => ∃ a, c.step a = some c' ∧ ¬ Displaces c v e a

section Steps

variable {c c' : Cluster} {g g' : Grp} {v : NodeId} {e : LogEntry} {a : Action}

/-- What a step may take from a member's log, a conflicting request takes. -/
theorem Refines.displaces (hr : Refines c g) (hs : c.step a = some c') {i : Nat} {op : Op}
    (ha : a = .run v op ∨ ∃ k, k ≠ 0 ∧ a = .crash v op k) (hl : Lost c g.history (g.peer v) op i)
    (he : (g.peer v).log[i]? = some e) : Displaces c v e a := by
  obtain ⟨p, hp⟩ : ∃ p, c.process v = some p := by
    rcases ha with rfl | ⟨k, -, rfl⟩ <;> simp only [Cluster.step] at hs <;> split at hs
    · cases hs
    · exact ⟨_, ‹_›⟩
    · cases hs
    · exact ⟨_, ‹_›⟩
  have hm := (hr.up v p hp).mirrors
  have hidx := (hr.peer_whole v).index he
  have hlen := (List.getElem?_eq_some_iff.mp he).1
  rcases op with _ | _ | ⟨j, timeout⟩ | _
  case deliver =>
    rcases hj : c.rpcs[j]? with _ | ⟨source, target, r | r | r | r⟩
    all_goals simp only [Lost, hj, Option.map_none, Option.map_some] at hl
    · obtain ⟨hterm, ⟨prev, hprev, hbp, hpl, hstamp⟩, k, hki, hbk, x, y, hx, hy, hxy, hne⟩ := hl
      have hpass : Passes p.node (.appendEntries r) :=
        ⟨hm.term ▸ hterm, by rw [hprev, hm.log.lastIndex]; omega,
          by rw [hprev, hstamp, hm.log.termAt hbp hpl]⟩
      refine ⟨j, timeout, _, p, ha, hj, hp, hpass, x, ?_, ?_, y, hy, hxy, hne.symm⟩
      · rw [hm.log.entries]
        exact List.mem_of_getElem? (i := k - (g.peer v).base)
          (by rw [List.getElem?_drop, Nat.add_sub_cancel' hbk, hx])
      · rw [(hr.peer_whole v).index hx, hidx]
        omega
    · obtain ⟨hterm, hadmits, hbase, hl⟩ := hl
      obtain ⟨-, k, hk, hrk, -, -, hdec⟩ := hr.rpcs _ (List.mem_of_getElem? hj)
      have hpass : Passes p.node (.installSnapshot r) := by
        refine ⟨hm.term ▸ hterm, hm.log.base ▸ hbase, fun hlt => ?_⟩
        rw [hm.commit] at hlt
        rw [← hadmits hlt]
        rw [hrk] at hlt hbase ⊢
        exact hm.log.termAt (by omega) ((by omega : k ≤ _).trans (hr.sound.peer v).commit_le)
      refine ⟨j, timeout, _, p, ha, hj, hp, hpass, ?_⟩
      change _ ∨ _
      rw [hrk] at hl hbase ⊢
      rcases hl with ⟨hki, hstamp⟩ | ⟨hik, hne⟩
      · left
        refine ⟨by omega, fun hat => hstamp ?_⟩
        rw [hm.log.termAt (by omega) (by omega)] at hat
        simpa using hat
      · right
        refine ⟨by omega, fun hat => hne ?_⟩
        rw [he, ← hat, hidx, show ((i : Int) + 1 - 1).toNat = i by omega,
          getElem?_of_isPrefix ((hr.committed _).mp hdec)
            (by rw [List.length_take_of_le hk]; omega), List.getElem?_take, if_pos (by omega)]
  all_goals exact hl.elim

/-- **An entry stays** where no leader takes it away. -/
theorem Moved.stays (hr : Refines c g) (hs : c.step a = some c') (hmv : Moved c g a c' g')
    (hn : ¬ Displaces c v e a) {i : Nat} (he : (g.peer v).log[i]? = some e) :
    (g'.peer v).log[i]? = some e :=
  (hmv.kept v i e he).resolve_right fun ⟨_, ha, hl⟩ => hn (hr.displaces hs ha hl he)

theorem Undisplaced.stays (h : Undisplaced v e c c') (hr : Refines c g) {i : Nat}
    (he : (g.peer v).log[i]? = some e) :
    ∃ g', Refines c' g' ∧ (g'.peer v).log[i]? = some e := by
  induction h with
  | refl => exact ⟨g, hr, he⟩
  | tail _ hs ih =>
    obtain ⟨g₁, hr₁, he₁⟩ := ih
    obtain ⟨a, hs, hn⟩ := hs
    obtain ⟨g₂, hmv⟩ := hr₁.step hs
    exact ⟨g₂, hmv.refines hr₁, hmv.stays hr₁ hs hn he₁⟩

end Steps

/-! ## 2. What an acknowledgement promises -/

/-- In the step from `c` to `c'` member `v` acknowledges `e`: it accepts a request that carries it,
or one that rests on it. -/
def Acknowledges (c c' : Cluster) (v : NodeId) (e : LogEntry) : Prop :=
  ∃ i timeout rpc response p', c.step (.run v (.deliver i timeout)) = some c' ∧
    c.rpcs[i]? = some rpc ∧ c'.answers = c.answers ++ [⟨i, response⟩] ∧ c'.process v = some p' ∧
    match rpc.request, response with
    | .appendEntries r, .appendEntries a => a.success = true ∧ (e ∈ r.entries ∨
        e.index ≤ r.prevLogIndex ∧ Has p'.node.log p'.node.snapshot c'.committed e)
    | .installSnapshot r, .installSnapshot a => a.success = true ∧
        e.index ≤ r.lastIncludedIndex ∧ c'.committed[(e.index - 1).toNat]? = some e
    | _, _ => False

section Acknowledges

variable {c c' : Cluster} {g : Grp} {v : NodeId} {e : LogEntry}

/-- **What a member acknowledges it holds.** -/
theorem Acknowledges.holds (hr : Refines c g) (h : Acknowledges c c' v e) :
    ∃ g' i, Refines c' g' ∧ e.index = (i : Nat) + 1 ∧ (g'.peer v).log[i]? = some e := by
  obtain ⟨j, timeout, rpc, response, p', hs, hj, hans, hp', hack⟩ := h
  obtain ⟨g', hmv⟩ := hr.step hs
  have hr' := hmv.refines hr
  obtain ⟨p, t, h', pe, hp, ht, hpr, rfl, rfl⟩ := hmv.run_inv
  -- the answer is the one the turn gave
  obtain ⟨rpc', hrpc', htarget, -, hup, -⟩ := hpr.answer ⟨j, response⟩ (by
    have : c.answers ++ t.answer.toList = c.answers ++ [⟨j, response⟩] := hans
    rcases ht : t.answer with _ | a
    · simp [ht] at this
    · simpa [ht] using this)
  obtain rfl : rpc' = rpc := Option.some.inj (hrpc'.symm.trans hj)
  have hm' := (hr'.up v p' hp').mirrors
  have hknown := hr'.rpcs rpc' (List.mem_append_left _ (List.mem_of_getElem? hj))
  suffices key : ∃ i : Nat, e.index = i + 1 ∧ ((g.act v h' pe).peer v).log[i]? = some e by
    obtain ⟨i, hi, hlog⟩ := key
    exact ⟨_, i, hr', hi, hlog⟩
  rcases rpc' with ⟨source, target, r | r | r | r⟩ <;> rcases response with a | a | a | a <;>
    try exact hack.elim
  · obtain ⟨hsucc, hmem | ⟨-, hhas⟩⟩ := hack
    · -- the window it took over
      obtain ⟨k, hk, hheld⟩ := hup hsucc
      obtain ⟨prev, last, commit, hap⟩ := hknown
      rw [hap.lastReplicated (hr'.whole _)] at hk
      obtain rfl : last = k := by omega
      rw [hap.entries] at hmem
      obtain ⟨i, hi⟩ := List.mem_iff_getElem?.mp hmem
      rw [List.getElem?_drop] at hi
      have hw := (hr'.whole r.term).of_isPrefix (List.take_prefix last _)
      refine ⟨prev + i, hw.index hi, ?_⟩
      rw [Group.act_peer_self, getElem?_of_isPrefix hheld (List.getElem?_eq_some_iff.mp hi).1, ← hi]
      rfl
    · exact Has.getElem hm'.log hm'.snapshot.index (hr'.base_isPrefix v) hr'.committed_whole hhas
  · -- the snapshot it installed
    obtain ⟨hsucc, hle, hcom⟩ := hack
    obtain ⟨k, hk, hheld⟩ := hup hsucc
    obtain ⟨-, k', hk', hidx, -, -, hdec⟩ := hknown
    have hle : e.index ≤ r.lastIncludedIndex := hle
    obtain rfl : k' = k := by omega
    have hei := hr'.committed_whole.index hcom
    refine ⟨_, hei, ?_⟩
    have hlt : (e.index - 1).toNat <
      (((g.act v h' pe).history.leaderLog r.term).take k').length := by
      rw [List.length_take_of_le hk']
      omega
    rw [Group.act_peer_self, getElem?_of_isPrefix hheld hlt, ← hcom,
      getElem?_of_isPrefix ((hr'.committed _).mp hdec) hlt]
    rfl

end Acknowledges

/-! ## 3. The promises kept -/

/-- What a node that has started from its data directory still keeps. -/
structure KeepsPromises (m : Members) (c : Cluster) (v : NodeId) (n : RaftNode) : Prop where
  /-- The snapshot and the log have one boundary. -/
  boundary : n.snapshot.lastIncludedIndex = n.log.baseIndex ∧
    n.snapshot.lastIncludedTerm = n.log.baseTerm
  /-- No answer of the member carried a newer term. -/
  term : ∀ a rpc, a ∈ c.answers → c.rpcs[a.rpc]? = some rpc → rpc.target = v →
    a.response.term ≤ n.state.currentTerm
  /-- A vote it granted in its term is its vote. -/
  vote : ∀ i source r (a : RequestVoteResponse), ⟨i, .requestVote a⟩ ∈ c.answers →
    c.rpcs[i]? = some ⟨source, v, .requestVote r⟩ → a.voteGranted = true →
    a.term = n.state.currentTerm → n.state.votedFor = some r.candidateId
  /-- An entry it acknowledged is there, unless a leader has replaced it since. -/
  entries : ∀ c₀ c₁ e, Reachable m c₀ → Acknowledges c₀ c₁ v e → Undisplaced v e c₁ c →
    Has n.log n.snapshot c.committed e

/-- **Crash recovery.**  A member that is down, whatever of its durable effects a crash has left on
its disk, starts without an error, and the node keeps every promise made before. -/
theorem restart_keeps_promises {m : Members} {c : Cluster} (hc : Reachable m c) {v : NodeId}
    (hv : v ∈ m) (hdown : c.process v = none) (clock : Clock) :
    ∃ n, (RaftNode.init v m (c.disk v) clock).result = .ok n ∧ KeepsPromises m c v n := by
  have hstart : ∀ {g : Grp}, Refines c g → ∃ n ws,
    RaftNode.init v m (c.disk v) clock = ⟨.ok n, ws⟩ ∧
      Up m v n ((c.disk v).writes ws) (g.peer v) g.history := by
    intro g hr
    obtain ⟨hdisk, hrole⟩ := hr.down v hdown
    obtain ⟨n, ws, hinit, hup, -⟩ := init_recovers hdisk hv hrole (hr.sound.peer v)
      (hr.peer_whole v) clock
    exact ⟨n, ws, hinit, hup⟩
  obtain ⟨g, hr, -⟩ := hc.refines
  obtain ⟨n, ws, hinit, hup⟩ := hstart hr
  have hm := hup.mirrors
  refine ⟨n, by rw [hinit], ⟨?_, ?_⟩, ?_, ?_, ?_⟩
  · rw [hm.snapshot.index, hm.log.base]
  · rw [hm.snapshot.term, hm.log.baseTerm]
  · intro a rpc ha hrpc htarget
    obtain ⟨rpc', hrpc', -, hterm⟩ := hr.answers a ha
    obtain rfl := Option.some.inj (hrpc.symm.trans hrpc')
    rwa [htarget, hm.term] at hterm
  · intro i source r a ha hrpc hgrant hterm
    obtain ⟨rpc', hrpc', hans, -⟩ := hr.answers _ ha
    obtain rfl := Option.some.inj (hrpc.symm.trans hrpc')
    obtain ⟨ht, b, hb, hbv, hbc, hbt⟩ := hans hgrant
    rw [← hm.vote, ← hbc]
    exact ((hr.sound.peer v).ballots b hb hbv).2 (by rw [hbt, ← ht, hterm, hm.term])
  · intro c₀ c₁ e h₀ hack hun
    obtain ⟨g₀, hr₀, -⟩ := h₀.refines
    obtain ⟨g₁, i, hr₁, -, he⟩ := hack.holds hr₀
    obtain ⟨g', hr', he'⟩ := hun.stays hr₁ he
    obtain ⟨n', ws', hinit', hup'⟩ := hstart hr'
    obtain rfl : n = n' := by
      rw [hinit] at hinit'
      cases hinit'
      rfl
    exact .of_getElem hup'.mirrors.log hup'.mirrors.snapshot (hr'.peer_whole v)
      (hr'.base_isPrefix v) he'

/-- The leader of the first write crashes when its snapshot is on disk and its journal is not cut
yet. -/
def snapshotCrash : Action := .crash "a" .createSnapshot 1

theorem snapshotCrash_steps : (afterFirstWrite.step snapshotCrash).isSome = true := by
  decide +kernel

def afterSnapshotCrash : Cluster := (afterFirstWrite.step snapshotCrash).get snapshotCrash_steps

/-- It starts with the snapshot's boundary, and keeps its promises. -/
theorem restart_keeps_promises_snapshotCrash :
    ∃ n, (RaftNode.init "a" threeMembers (afterSnapshotCrash.disk "a") ⟨4500, 1500⟩).result =
        .ok n ∧ KeepsPromises threeMembers afterSnapshotCrash "a" n ∧ n.log.baseIndex = 1 := by
  have hdown : (afterSnapshotCrash.process "a").isNone = true := by decide +kernel
  have hbase : (RaftNode.init "a" threeMembers (afterSnapshotCrash.disk "a")
      ⟨4500, 1500⟩).result.toOption.map (·.log.baseIndex) = some 1 := by decide +kernel
  obtain ⟨n, hn, hkeeps⟩ := restart_keeps_promises
    (afterFirstWrite_reachable.tail ⟨_, (Option.some_get snapshotCrash_steps).symm⟩)
    (by decide) (Option.isNone_iff_eq_none.mp hdown) ⟨4500, 1500⟩
  have hn' : (RaftNode.init "a" threeMembers (afterSnapshotCrash.disk "a") ⟨4500, 1500⟩).result =
    .ok n := hn
  rw [hn'] at hbase
  exact ⟨n, hn, hkeeps, Option.some.inj hbase⟩

end PyRaftKv
