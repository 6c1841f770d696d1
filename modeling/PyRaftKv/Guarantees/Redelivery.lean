/-
# Late and repeated AppendEntries

A transport gives up on requests that arrive later all the same, so a follower may get a leader's
requests of one term in any order and any number of times, with snapshots of its own in between.
A short request that comes late brings entries that the follower holds already and cuts nothing
(`Spliced.agrees_keep`), so a run keeps what it was brought and takes no index back
(`Consistent.run`), and where it ends depends on the set of the accepted requests only
(`Consistent.ends`).

This rests on the Log Matching property: where the follower has the index and term of one of the
leader's entries, it has that entry and all before it.  To have the same entry there is not enough
(`matching_entry_only`), since a request speaks of the entry before its own and of none below.
-/
import PyRaftKv.Guarantees.CatchUp
import PyRaftKv.Guarantees.Installing

open Consensus

namespace PyRaftKv

/-! ## 1. The leader's requests -/

/-- Above its base and up to `k`, the log holds the entries of `L`. -/
def RaftLog.Agrees (log : RaftLog) (L : List LogEntry) (k : Int) : Prop :=
  ∀ i, log.baseIndex < i → i ≤ k → ∃ e ∈ L, e.index = i ∧ log.get i = some e

/-- A leader that has come as far as `state` and `log` in a term at whose end its whole log is `L`.
Its log only grows. -/
structure LeaderWith (L : List LogEntry) (state : RaftState) (log : RaftLog) : Prop where
  shows : ∃ l b, l <+: L ∧ Shows log l b
  commit_le : state.commitIndex ≤ log.lastIndex

/-- A request that the leader has built in term `t`, whatever its `next_index` was. -/
def BuiltIn (L : List LogEntry) (t : Int) (r : AppendEntriesRequest) : Prop :=
  ∃ (table : LeaderReplication) (state : RaftState) (log : RaftLog) (follower : NodeId),
    LeaderWith L state log ∧ state.currentTerm = t ∧
      table.buildRequest state log follower = .ok r

/-- What such a request is, against the whole log. -/
structure CutFrom (L : List LogEntry) (t : Int) (r : AppendEntriesRequest) : Prop where
  term : r.term = t
  contiguous : Contiguous r.prevLogIndex r.entries
  entries : ∀ e ∈ r.entries, e ∈ L
  prev : ∀ e ∈ L, e.index = r.prevLogIndex → e.term = r.prevLogTerm
  reached : ∀ i, 0 < i → i ≤ r.prevLogIndex → ∃ e ∈ L, e.index = i
  leaderCommit : r.leaderCommit ≤ r.prevLogIndex + r.entries.length

theorem Contiguous.mem_iff {L : List LogEntry} (hL : Contiguous 0 L) {e : LogEntry} {k : Nat}
    (he : e.index = k + 1) : e ∈ L ↔ L[k]? = some e := by
  refine ⟨fun hmem => ?_, List.mem_of_getElem?⟩
  obtain ⟨i, hi⟩ := List.getElem?_of_mem hmem
  have hidx := hL i e hi
  obtain rfl : i = k := by omega
  exact hi

theorem Contiguous.mem_unique {L : List LogEntry} (hL : Contiguous 0 L) {x y : LogEntry}
    (hx : x ∈ L) (hy : y ∈ L) (h : x.index = y.index) : x = y := by
  obtain ⟨i, hi⟩ := List.getElem?_of_mem hx
  have hidx := hL i x hi
  have hy' := (hL.mem_iff (e := y) (k := i) (by omega)).mp hy
  exact Option.some.inj (hi.symm.trans hy')

theorem BuiltIn.cut {L : List LogEntry} {t : Int} {r : AppendEntriesRequest} (hL : Contiguous 0 L)
    (h : BuiltIn L t r) : CutFrom L t r := by
  obtain ⟨table, state, log, f, ⟨⟨l, b, hpre, hs⟩, hcommit⟩, hterm, hbuild⟩ := h
  have hl : Contiguous 0 l := by
    intro i e he
    exact hL i e (getElem?_mono hpre he)
  unfold LeaderReplication.buildRequest at hbuild
  by_cases hf : f ∉ table.followers
  · rw [if_pos hf] at hbuild
    cases hbuild
  rw [if_neg hf] at hbuild
  by_cases hnext : table.nextIndex f ≤ log.baseIndex
  · simp only [if_pos hnext] at hbuild
    cases hbuild
  simp only [if_neg hnext] at hbuild
  rcases hprev : log.termAt (table.nextIndex f - 1) with _ | prevTerm
  · simp only [hprev] at hbuild
    cases hbuild
  obtain ⟨k, hk, hbk, hkl, hstamp⟩ := hs.termAt_eq_some.mp hprev
  have hents : log.entriesFrom (table.nextIndex f) = .ok (l.drop k) := by
    rw [show table.nextIndex f = (k : Int) + 1 by omega]
    exact hs.entriesFrom hbk
  simp only [hprev, hents] at hbuild
  cases hbuild
  refine ⟨hterm, ?_, fun e he => hpre.subset (List.drop_subset _ _ he), fun e he hidx => ?_,
    fun i hi hle => ?_, ?_⟩
  · change Contiguous (table.nextIndex f - 1) _
    rw [hk]
    simpa using hl.drop k
  · -- the entry before the request's own is one of the leader's log at that time
    change e.index = table.nextIndex f - 1 at hidx
    change e.term = prevTerm
    obtain ⟨i, hi⟩ := List.getElem?_of_mem he
    have hidx' := hL i e hi
    obtain rfl : k = i + 1 := by omega
    have hget := List.getElem?_eq_getElem (show i < l.length by omega)
    obtain rfl : l[i] = e := Option.some.inj ((getElem?_mono hpre hget).symm.trans hi)
    rw [hstamp, lastStamp_take_succ hget]
  · change i ≤ table.nextIndex f - 1 at hle
    have hlt : (i - 1).toNat < l.length := by omega
    have hget := List.getElem?_eq_getElem hlt
    exact ⟨_, hpre.subset (List.getElem_mem hlt), by have := hl _ _ hget; omega⟩
  · change state.commitIndex ≤ table.nextIndex f - 1 + (l.drop k).length
    rw [hs.lastIndex] at hcommit
    rw [List.length_drop]
    omega

/-! ## 2. What a request leaves of the follower's log -/

/-- **Log Matching**: where the follower has the index and term of an entry of `L`, it has that
entry and all of `L` before it. -/
def RaftLog.Matches (log : RaftLog) (L : List LogEntry) : Prop :=
  ∀ y ∈ L, ∀ x, log.get y.index = some x → x.term = y.term → log.Agrees L y.index

section Splice

variable {L : List LogEntry} {log log' : RaftLog} {p : Int} {es : List LogEntry}

theorem RaftLog.Agrees.mono {k k' : Int} (h : log.Agrees L k) (hle : k' ≤ k) :
    log.Agrees L k' := fun i hi hik => h i hi (hik.trans hle)

theorem RaftLog.Agrees.le_lastIndex {k : Int} (h : log.Agrees L k) : k ≤ log.lastIndex := by
  refine RaftLog.le_lastIndex_of_get fun hlt => ?_
  obtain ⟨e, -, -, he⟩ := h k hlt le_rfl
  exact ⟨e, he⟩

/-- An entry of `L` up to `k` is in conflict with nothing. -/
theorem RaftLog.Agrees.not_conflicts (hL : Contiguous 0 L) {k : Int} (h : log.Agrees L k)
    {e : LogEntry} (he : e ∈ L) (hle : e.index ≤ k) : ¬ log.Conflicts e := by
  rintro ⟨x, hx, hne⟩
  obtain ⟨y, hy, hidx, hget⟩ := h e.index (RaftLog.base_lt_of_get hx) hle
  obtain rfl : y = e := hL.mem_unique hy he hidx
  rw [hget] at hx
  cases hx
  exact hne rfl

/-- The log agrees with `L` up to the end of the request. -/
theorem Spliced.agrees (hs : Spliced log log' p es) (hes : Contiguous p es)
    (hmem : ∀ e ∈ es, e ∈ L) (hmatch : log.Matches L) (hprev : log.Agrees L p) :
    log'.Agrees L (p + es.length) := by
  intro i hi hle
  rw [hs.baseIndex] at hi
  by_cases hip : i ≤ p
  · rw [hs.below i hip]
    exact hprev i hi hip
  · obtain ⟨k, rfl⟩ : ∃ k : Nat, i = p + k + 1 := ⟨(i - p - 1).toNat, by omega⟩
    have hget := List.getElem?_eq_getElem (show k < es.length by omega)
    have hidx := hes k _ hget
    have hin := List.getElem_mem (show k < es.length by omega)
    obtain ⟨e', hget', hterm, rfl | hold⟩ := hs.window _ hin
    · exact ⟨_, hmem _ hin, hidx, hidx ▸ hget'⟩
    · -- the follower had the index and term of that entry
      obtain ⟨y, hy, hyidx, hyget⟩ := hmatch _ (hmem _ hin) e' hold hterm _
        (RaftLog.base_lt_of_get hold) le_rfl
      rw [hold] at hyget
      cases hyget
      exact ⟨_, hy, hyidx.trans hidx, hidx ▸ hget'⟩

/-- **What agreed with `L` still does**, however short the request is. -/
theorem Spliced.agrees_keep (hs : Spliced log log' p es) (hL : Contiguous 0 L)
    (hes : Contiguous p es) (hmem : ∀ e ∈ es, e ∈ L) (hend : log'.Agrees L (p + es.length))
    {k : Int} (h : log.Agrees L k) : log'.Agrees L k := by
  intro i hi hle
  by_cases hin : i ≤ p + es.length
  · exact hend i hi hin
  · -- the request ends below `k`, so its entries are in conflict with nothing
    have hno : ∀ e ∈ es, ¬ log.Conflicts e := by
      intro e he
      obtain ⟨j, hj⟩ := List.getElem?_of_mem he
      have hidx := hes j e hj
      have hlen := (List.getElem?_eq_some_iff.mp hj).1
      exact h.not_conflicts hL (hmem e he) (by omega)
    rw [(hs.kept hno).2 i (by omega)]
    rw [hs.baseIndex] at hi
    exact h i hi hle

/-- Log Matching is kept. -/
theorem Spliced.matches (hs : Spliced log log' p es) (hL : Contiguous 0 L) (hes : Contiguous p es)
    (hmem : ∀ e ∈ es, e ∈ L) (hend : log'.Agrees L (p + es.length)) (hmatch : log.Matches L) :
    log'.Matches L := by
  intro y hy x hx hterm
  by_cases hin : y.index ≤ p + es.length
  · exact hend.mono hin
  · by_cases hconf : ∃ e ∈ es, log.Conflicts e
    · rw [RaftLog.get_above (by rw [hs.cut hconf]; omega)] at hx
      cases hx
    · have hno : ∀ e ∈ es, ¬ log.Conflicts e := fun e he hc => hconf ⟨e, he, hc⟩
      rw [(hs.kept hno).2 _ (by omega)] at hx
      exact hs.agrees_keep hL hes hmem hend (hmatch y hy x hx hterm)

end Splice

/-! ## 3. One delivery -/

/-- **A follower of the leader**: its log and `L` match, what it has committed is in `L`, and it has
applied at least what its snapshot covers. -/
structure Consistent (L : List LogEntry) (n : RaftNode) : Prop where
  matching : n.log.Matches L
  committed : n.log.Agrees L n.state.commitIndex
  base : n.log.baseIndex ≤ n.state.lastApplied

/-- What happens to the follower. -/
inductive FollowerEvent
  | deliver (clock : Clock) (request : AppendEntriesRequest)
  | createSnapshot

namespace FollowerEvent

def run (n : RaftNode) : FollowerEvent → RaftNode
  | .deliver clock r => (RaftNode.handleAppendEntries clock r n).node
  | .createSnapshot => (RaftNode.createSnapshot n).node

/-- The request that is answered with success. -/
def accepts (n : RaftNode) : FollowerEvent → Option AppendEntriesRequest
  | .deliver clock r =>
    match (RaftNode.handleAppendEntries clock r n).result with
    | .ok a => if a.success then some r else none
    | .error _ => none
  | .createSnapshot => none

/-- Only requests that the leader has built in its term are delivered. -/
def FromLeader (L : List LogEntry) (t : Int) : FollowerEvent → Prop
  | .deliver _ r => BuiltIn L t r
  | .createSnapshot => True

end FollowerEvent

/-- What an event does: the indexes go on to what an accepted request commits, and the log to what
it brings. -/
structure Follows (L : List LogEntry) (n n' : RaftNode) (accepted : Option AppendEntriesRequest) :
    Prop where
  base_le : n.log.baseIndex ≤ n'.log.baseIndex
  keeps : ∀ k, n.log.Agrees L k → n'.log.Agrees L k
  brings : ∀ r ∈ accepted, n'.log.Agrees L (r.prevLogIndex + r.entries.length)
  commitIndex : n'.state.commitIndex =
    accepted.elim n.state.commitIndex fun r => max n.state.commitIndex r.leaderCommit
  lastApplied : n'.state.lastApplied =
    accepted.elim n.state.lastApplied fun r =>
      if r.leaderCommit ≤ n.state.commitIndex then n.state.lastApplied
      else max n.state.lastApplied r.leaderCommit

section Delivery

variable {L : List LogEntry} {n : RaftNode} {r : AppendEntriesRequest} {t : Int}

/-- What the handler of the node leaves is what the handler of the log leaves. -/
theorem handleAppendEntries_leaves (clock : Clock) {a : AppendEntriesResponse} {state : RaftState}
    {log : RaftLog} {store : KVStore}
    (hrun : PyRaftKv.handleAppendEntries n.state n.log r n.store = (.ok a, state, log, store)) :
    (RaftNode.handleAppendEntries clock r n).result = .ok a ∧
      (RaftNode.handleAppendEntries clock r n).node.state = state ∧
      (RaftNode.handleAppendEntries clock r n).node.log = log := by
  have hdrop : ∀ n' : RaftNode, n'.dropReplication.state = n'.state ∧
      n'.dropReplication.log = n'.log := by
    intro n'
    obtain ⟨replication, heq⟩ := dropReplication_only n'
    rw [heq]
    exact ⟨rfl, rfl⟩
  obtain ⟨ws, hpersist⟩ := persistLogChange_ok n.log log.entries { n with state, log, store }
  simp only [RaftNode.handleAppendEntries, NodeM.bind_run, NodeM.get_run, NodeM.andThen_ok,
    NodeM.behind_nil, NodeM.modify_run, hrun, NodeM.lift_ok_run, hpersist, NodeM.ite_run,
    RaftNode.persistState, NodeM.persist_run, NodeM.pure_run]
  split
  · split
    · exact ⟨rfl, hdrop _⟩
    · exact ⟨rfl, hdrop _⟩
  · split
    · exact ⟨rfl, hdrop _⟩
    · exact ⟨rfl, hdrop _⟩

/-- A delivery that changes nothing but the term. -/
theorem Follows.refused (clock : Clock) {term : Int} {state : RaftState}
    (hrun : PyRaftKv.handleAppendEntries n.state n.log r n.store =
      (.ok ⟨term, false⟩, state, n.log, n.store))
    (hc : state.commitIndex = n.state.commitIndex) (ha : state.lastApplied = n.state.lastApplied) :
    Follows L n (FollowerEvent.run n (.deliver clock r))
      (FollowerEvent.accepts n (.deliver clock r)) ∧
      (FollowerEvent.run n (.deliver clock r)).log = n.log := by
  obtain ⟨hres, hstate, hlog⟩ := handleAppendEntries_leaves clock hrun
  have hnone : FollowerEvent.accepts n (.deliver clock r) = none := by
    simp only [FollowerEvent.accepts, hres, Bool.false_eq_true, if_false]
  rw [hnone]
  refine ⟨⟨?_, ?_, fun _ hr => (nomatch hr), ?_, ?_⟩, hlog⟩
  · exact (congrArg RaftLog.baseIndex hlog).ge
  · exact fun k hk => hlog.symm ▸ hk
  · exact (congrArg RaftState.commitIndex hstate).trans hc
  · exact (congrArg RaftState.lastApplied hstate).trans ha

/-- A request that matches finds the leader's entries up to its previous index. -/
theorem Consistent.agrees_prev (hn : Consistent L n) (hr : CutFrom L t r)
    (hprev : n.log.termAt r.prevLogIndex = some r.prevLogTerm) : n.log.Agrees L r.prevLogIndex := by
  intro i hi hip
  have hbase := n.log.base_nonneg
  obtain ⟨y, hy, hidx⟩ := hr.reached _ (show 0 < r.prevLogIndex by omega) le_rfl
  unfold RaftLog.termAt at hprev
  rw [if_neg (by omega)] at hprev
  obtain ⟨x, hx, hterm⟩ := Option.map_eq_some_iff.mp hprev
  rw [← hidx] at hx
  exact hn.matching y hy x hx (hterm.trans (hr.prev y hy hidx).symm) i hi (by omega)

/-- What the request commits can be applied, once its entries are in the log. -/
theorem Consistent.appliable (hL : Whole L) (hn : Consistent L n) (hr : CutFrom L t r)
    {log' : RaftLog} (hb : log'.baseIndex = n.log.baseIndex)
    (hend : log'.Agrees L (r.prevLogIndex + r.entries.length)) :
    (updateFollowerCommit (n.state.follow r.term (some r.leaderId)) log' n.store
      r.leaderCommit).1 = .ok () := by
  refine (updateFollowerCommit_ok_iff _ _ _ _).mpr (Or.inr fun i hi hle => ?_)
  have hi' : n.state.lastApplied < i := hi
  have hbase := hn.base
  have hcommit := hr.leaderCommit
  obtain ⟨e, he, -, hget⟩ := hend i (by omega) (by omega)
  exact ⟨e, hget, hL.valid e he⟩

/-- A delivery that splices the request's entries in. -/
theorem Follows.accepted (hL : Whole L) (hr : CutFrom L t r) (clock : Clock) {a : Int}
    {state : RaftState} {log' : RaftLog} {store : KVStore}
    (hs : Spliced n.log log' r.prevLogIndex r.entries)
    (hend : log'.Agrees L (r.prevLogIndex + r.entries.length))
    (hrun : PyRaftKv.handleAppendEntries n.state n.log r n.store =
      (.ok ⟨a, true⟩, state, log', store))
    (hstate : state =
      if r.leaderCommit ≤ n.state.commitIndex then n.state.follow r.term (some r.leaderId)
      else { n.state.follow r.term (some r.leaderId) with
        commitIndex := min r.leaderCommit log'.lastIndex
        lastApplied := max n.state.lastApplied (min r.leaderCommit log'.lastIndex) }) :
    Follows L n (FollowerEvent.run n (.deliver clock r))
      (FollowerEvent.accepts n (.deliver clock r)) ∧
      (FollowerEvent.run n (.deliver clock r)).log = log' := by
  obtain ⟨hres, hstate', hlog⟩ := handleAppendEntries_leaves clock hrun
  have hsome : FollowerEvent.accepts n (.deliver clock r) = some r := by
    simp only [FollowerEvent.accepts, hres, if_true]
  replace hlog : (FollowerEvent.run n (.deliver clock r)).log = log' := hlog
  replace hstate' : (FollowerEvent.run n (.deliver clock r)).state = state := hstate'
  -- the request commits no more than it brings
  have hmin : min r.leaderCommit log'.lastIndex = r.leaderCommit := by
    have hcommit := hr.leaderCommit
    have hlast := hend.le_lastIndex
    omega
  rw [hmin] at hstate
  rw [hsome]
  refine ⟨⟨?_, fun k hk => ?_, ?_, ?_, ?_⟩, hlog⟩
  · rw [hlog, hs.baseIndex]
  · rw [hlog]
    exact hs.agrees_keep hL.contiguous hr.contiguous hr.entries hend hk
  · rintro r' ⟨⟩
    rw [hlog]
    exact hend
  · rw [hstate', hstate, Option.elim_some]
    split
    · rename_i hle
      exact (max_eq_left hle).symm
    · rename_i hlt
      exact (max_eq_right (not_le.mp hlt).le).symm
  · rw [hstate', hstate, Option.elim_some]
    split <;> rfl

/-- **One request of the leader.** -/
theorem Consistent.deliver (hL : Whole L) (hn : Consistent L n) (hr : CutFrom L t r)
    (clock : Clock) :
    Follows L n (FollowerEvent.run n (.deliver clock r))
      (FollowerEvent.accepts n (.deliver clock r)) ∧
      (FollowerEvent.run n (.deliver clock r)).log.Matches L ∧
      (FollowerEvent.run n (.deliver clock r)).log.baseIndex = n.log.baseIndex := by
  by_cases hge : n.state.currentTerm ≤ r.term
  swap
  · obtain ⟨hfollows, hlog⟩ := Follows.refused (L := L) clock
      (handleAppendEntries_stale (not_le.mp hge)) rfl rfl
    exact ⟨hfollows, hlog.symm ▸ hn.matching, congrArg RaftLog.baseIndex hlog⟩
  by_cases hprev : n.log.termAt r.prevLogIndex = some r.prevLogTerm
  swap
  · obtain ⟨hfollows, hlog⟩ := Follows.refused (L := L) clock
      (handleAppendEntries_mismatch hge hprev) rfl rfl
    exact ⟨hfollows, hlog.symm ▸ hn.matching, congrArg RaftLog.baseIndex hlog⟩
  obtain ⟨log', hs, hrun⟩ := handleAppendEntries_splices n.store hge hprev hr.contiguous
  have hend := hs.agrees hr.contiguous hr.entries hn.matching (hn.agrees_prev hr hprev)
  obtain ⟨state, store, hanswer, hstate⟩ :=
    commitAndAnswer_ok (hn.appliable hL hr hs.baseIndex hend)
  obtain ⟨hfollows, hlog⟩ :=
    Follows.accepted hL hr clock hs hend (hrun.trans hanswer) hstate
  refine ⟨hfollows, ?_, by rw [hlog, hs.baseIndex]⟩
  rw [hlog]
  exact hs.matches hL.contiguous hr.contiguous hr.entries hend hn.matching

/-- `create_snapshot` moves the base up to what is applied, or does nothing. -/
theorem createSnapshot_compacts (n : RaftNode) :
    (RaftNode.createSnapshot n).node.state = n.state ∧
      ((RaftNode.createSnapshot n).node.log = n.log ∨
        n.log.baseIndex ≤ (RaftNode.createSnapshot n).node.log.baseIndex ∧
        (RaftNode.createSnapshot n).node.log.baseIndex ≤ n.state.lastApplied ∧
        ∀ i, (RaftNode.createSnapshot n).node.log.baseIndex < i →
          (RaftNode.createSnapshot n).node.log.get i = n.log.get i) := by
  simp only [RaftNode.createSnapshot, NodeM.bind_run, NodeM.get_run, NodeM.andThen_ok,
    NodeM.behind_nil, NodeM.ite_run, NodeM.pure_run]
  split
  · exact ⟨rfl, Or.inl rfl⟩
  rename_i hlow
  rcases hterm : n.log.termAt (min n.state.commitIndex n.state.lastApplied) with _ | term
  · exact ⟨rfl, Or.inl rfl⟩
  rcases hsnapshot : RaftSnapshot.new (min n.state.commitIndex n.state.lastApplied) term
      n.store.snapshot with e | snapshot
  · simp only [NodeM.bind_run, hsnapshot]
    exact ⟨rfl, Or.inl rfl⟩
  rcases Int.lt_or_le n.log.baseTerm 0 with hneg | hnonneg
  · obtain ⟨e, hcopy⟩ := RaftLog.copy_raises hneg
    simp only [NodeM.bind_run, hsnapshot, NodeM.lift_ok_run, NodeM.andThen_ok,
      NodeM.persist_run, hcopy]
    exact ⟨rfl, Or.inl rfl⟩
  -- the copy is compacted through an index that the log has
  have hcompact : n.log.compactThrough (min n.state.commitIndex n.state.lastApplied) =
      .ok (n.log.rebase (min n.state.commitIndex n.state.lastApplied) term (by omega)
        (by have := n.log.base_nonneg; omega)) := by
    unfold RaftLog.compactThrough
    rw [dif_neg (by omega), dif_neg (by omega)]
    split
    · rename_i hnone
      rw [hterm] at hnone
      cases hnone
    · rename_i term' hsome
      rw [hterm] at hsome
      cases hsome
      rfl
  simp only [NodeM.bind_run, hsnapshot, NodeM.lift_ok_run, NodeM.andThen_ok, NodeM.behind_mk,
    NodeM.persist_run, RaftLog.copy_ok hnonneg, hcompact, RaftNode.persistState, NodeM.get_run,
    NodeM.modify_run, NodeM.pure_run, RaftNode.compacted]
  refine ⟨trivial, Or.inr ⟨(not_le.mp hlow).le, min_le_right _ _, fun i hi => ?_⟩⟩
  exact (RaftLog.rebase_get _ _ (RaftLog.reaches_of_termAt hterm).2).2 i hi

theorem RaftLog.Agrees.above {log log' : RaftLog} {k : Int} (h : log.Agrees L k)
    (hb : log.baseIndex ≤ log'.baseIndex)
    (hsame : ∀ i, log'.baseIndex < i → log'.get i = log.get i) :
    log'.Agrees L k := by
  intro i hi hle
  rw [hsame i hi]
  exact h i (by omega) hle

theorem Consistent.next {n' : RaftNode} {accepted : Option AppendEntriesRequest}
    (hn : Consistent L n) (hf : Follows L n n' accepted) (hmatch : n'.log.Matches L)
    (hbase : n'.log.baseIndex ≤ n'.state.lastApplied)
    (hcut : ∀ r ∈ accepted, r.leaderCommit ≤ r.prevLogIndex + r.entries.length) :
    Consistent L n' := by
  have hcommit := hf.commitIndex
  refine ⟨hmatch, ?_, hbase⟩
  rcases accepted with _ | r
  · rw [Option.elim_none] at hcommit
    rw [hcommit]
    exact hf.keeps _ hn.committed
  · rw [Option.elim_some] at hcommit
    rw [hcommit]
    rcases max_choice n.state.commitIndex r.leaderCommit with hmax | hmax
    · rw [hmax]
      exact hf.keeps _ hn.committed
    · rw [hmax]
      exact (hf.brings r rfl).mono (hcut r rfl)

theorem Follows.indexes_le {n' : RaftNode} {accepted : Option AppendEntriesRequest}
    (hf : Follows L n n' accepted) :
    n.state.commitIndex ≤ n'.state.commitIndex ∧ n.state.lastApplied ≤ n'.state.lastApplied := by
  have hcommit := hf.commitIndex
  have happlied := hf.lastApplied
  rcases accepted with _ | r
  · rw [Option.elim_none] at hcommit happlied
    omega
  · rw [Option.elim_some] at hcommit happlied
    split at happlied <;> omega

/-- **One event.** -/
theorem Consistent.step (hL : Whole L) (hn : Consistent L n) {event : FollowerEvent}
    (he : event.FromLeader L t) :
    Follows L n (event.run n) (event.accepts n) ∧ Consistent L (event.run n) := by
  cases event with
  | deliver clock r =>
    have hcut := BuiltIn.cut hL.contiguous he
    obtain ⟨hf, hmatch, hbase⟩ := hn.deliver hL hcut clock
    refine ⟨hf, hn.next hf hmatch ?_ fun r' hr' => ?_⟩
    · have := hf.indexes_le.2
      have := hn.base
      omega
    · obtain rfl : r = r' := by
        simp only [FollowerEvent.accepts] at hr'
        split at hr'
        · split at hr'
          · exact Option.some.inj hr'
          · cases hr'
        · cases hr'
      exact hcut.leaderCommit
  | createSnapshot =>
    obtain ⟨hstate, hlog⟩ := createSnapshot_compacts n
    replace hstate : (FollowerEvent.run n .createSnapshot).state = n.state := hstate
    obtain ⟨hb, hle, hsame⟩ :
        n.log.baseIndex ≤ (FollowerEvent.run n .createSnapshot).log.baseIndex ∧
        (FollowerEvent.run n .createSnapshot).log.baseIndex ≤ n.state.lastApplied ∧
        ∀ i, (FollowerEvent.run n .createSnapshot).log.baseIndex < i →
          (FollowerEvent.run n .createSnapshot).log.get i = n.log.get i := by
      rcases hlog with hlog | hlog
      · have hlog' : (FollowerEvent.run n .createSnapshot).log = n.log := hlog
        rw [hlog']
        exact ⟨le_rfl, hn.base, fun _ _ => rfl⟩
      · exact hlog
    have hf : Follows L n (FollowerEvent.run n .createSnapshot) none :=
      ⟨hb, fun k hk => hk.above hb hsame, fun _ hr => (nomatch hr), congrArg _ hstate,
        congrArg _ hstate⟩
    refine ⟨hf, hn.next hf (fun y hy x hx hterm => ?_) (by rw [hstate]; exact hle)
      fun _ hr => (nomatch hr)⟩
    rw [hsame _ (RaftLog.base_lt_of_get hx)] at hx
    exact (hn.matching y hy x hx hterm).above hb hsame

end Delivery

/-! ## 4. Any order and any number of times -/

/-- The follower after the events. -/
def deliveries (n : RaftNode) (events : List FollowerEvent) : RaftNode :=
  events.foldl FollowerEvent.run n

/-- The requests that are answered with success on the way. -/
def successes : RaftNode → List FollowerEvent → List AppendEntriesRequest
  | _, [] => []
  | n, event :: events => (event.accepts n).toList ++ successes (event.run n) events

section Runs

variable {L : List LogEntry} {n : RaftNode} {t : Int}

/-- **A run of events** keeps what agreed with `L`, brings what is answered with success, and never
takes an index back. -/
theorem Consistent.run (hL : Whole L) : ∀ {events : List FollowerEvent} {n : RaftNode},
    Consistent L n → (∀ event ∈ events, event.FromLeader L t) →
    Consistent L (deliveries n events) ∧
      (∀ k, n.log.Agrees L k → (deliveries n events).log.Agrees L k) ∧
      (∀ r ∈ successes n events,
        (deliveries n events).log.Agrees L (r.prevLogIndex + r.entries.length)) ∧
      n.state.commitIndex ≤ (deliveries n events).state.commitIndex ∧
      n.state.lastApplied ≤ (deliveries n events).state.lastApplied := by
  intro events
  induction events with
  | nil => exact fun hn _ => ⟨hn, fun _ hk => hk, fun _ hr => (nomatch hr), le_rfl, le_rfl⟩
  | cons event events ih =>
    intro n hn hall
    obtain ⟨hf, hn'⟩ := hn.step hL (hall event List.mem_cons_self)
    obtain ⟨hend, hkeeps, hbrings, hcommit, happlied⟩ :=
      ih hn' fun e he => hall e (List.mem_cons_of_mem _ he)
    obtain ⟨hcommit', happlied'⟩ := hf.indexes_le
    refine ⟨hend, fun k hk => hkeeps k (hf.keeps k hk), fun r hr => ?_, hcommit'.trans hcommit,
      happlied'.trans happlied⟩
    rcases List.mem_append.mp hr with hr | hr
    · exact hkeeps _ (hf.brings r (Option.mem_toList.mp hr))
    · exact hbrings r hr

/-- **Where a run of events ends** depends on the requests answered with success only. -/
theorem Consistent.ends (hL : Whole L) : ∀ {events : List FollowerEvent} {n : RaftNode},
    Consistent L n → (∀ event ∈ events, event.FromLeader L t) →
    (∀ k, k ≤ (deliveries n events).state.commitIndex ↔
      k ≤ n.state.commitIndex ∨ ∃ r ∈ successes n events, k ≤ r.leaderCommit) ∧
    (∀ k, k ≤ (deliveries n events).state.lastApplied ↔ k ≤ n.state.lastApplied ∨
      ∃ r ∈ successes n events, k ≤ r.leaderCommit ∧ n.state.commitIndex < r.leaderCommit) := by
  intro events
  induction events with
  | nil =>
    intro n _ _
    simp [deliveries, successes]
  | cons event events ih =>
    intro n hn hall
    obtain ⟨hf, hn'⟩ := hn.step hL (hall event List.mem_cons_self)
    obtain ⟨hcommit, happlied⟩ := ih hn' fun e he => hall e (List.mem_cons_of_mem _ he)
    have hc := hf.commitIndex
    have ha := hf.lastApplied
    have hrun : deliveries n (event :: events) = deliveries (event.run n) events := rfl
    have hsucc : successes n (event :: events) =
        (event.accepts n).toList ++ successes (event.run n) events := rfl
    rcases haccepted : event.accepts n with _ | r
    · rw [haccepted, Option.elim_none] at hc ha
      rw [hrun, hsucc, haccepted, Option.toList_none, List.nil_append]
      exact ⟨fun k => by rw [hcommit k, hc], fun k => by rw [happlied k, ha, hc]⟩
    · rw [haccepted, Option.elim_some] at hc ha
      rw [hrun, hsucc, haccepted, Option.toList_some, List.singleton_append]
      refine ⟨fun k => ?_, fun k => ?_⟩
      · simp only [List.mem_cons, exists_eq_or_imp]
        rw [hcommit k, hc, le_max_iff, or_assoc]
      · simp only [List.mem_cons, exists_eq_or_imp]
        rw [happlied k, ha, hc]
        split
        · rename_i hold
          rw [max_eq_left hold]
          refine or_congr_right (Iff.symm (or_iff_right ?_))
          exact fun h => absurd h.2 (not_lt.mpr hold)
        · -- all that is accepted later and commits no more has been applied by now
          rename_i hnew
          rw [max_eq_right (not_le.mp hnew).le, le_max_iff]
          constructor
          · rintro ((hk | hk) | ⟨r', hr', hk, hlt⟩)
            · exact Or.inl hk
            · exact Or.inr (Or.inl ⟨hk, not_le.mp hnew⟩)
            · exact Or.inr (Or.inr ⟨r', hr', hk, (not_le.mp hnew).trans hlt⟩)
          · rintro (hk | ⟨hk, -⟩ | ⟨r', hr', hk, hlt⟩)
            · exact Or.inl (Or.inl hk)
            · exact Or.inl (Or.inr hk)
            · rcases Int.lt_or_le r.leaderCommit r'.leaderCommit with hlt' | hle'
              · exact Or.inr ⟨r', hr', hk, hlt'⟩
              · exact Or.inl (Or.inr (hk.trans hle'))

end Runs

/-- The follower holds the leader's entry at index `i`, in its log or under its snapshot. -/
def HoldsEntry (L : List LogEntry) (n : RaftNode) (i : Int) : Prop :=
  i ≤ n.log.baseIndex ∨ ∃ e ∈ L, e.index = i ∧ n.log.get i = some e

/-- **Nothing is undone** in two runs of events from one state: what was answered with success
within the first stays held at its end, indexes only go up, and runs that accept the same requests
end at the same indexes. -/
structure Redelivered (L : List LogEntry) (n : RaftNode) (events events' : List FollowerEvent) :
    Prop where
  held : ∀ before after, events = before ++ after → ∀ r ∈ successes n before, ∀ i,
    i ≤ r.prevLogIndex + r.entries.length → HoldsEntry L (deliveries n events) i
  commit_le : ∀ before after, events = before ++ after →
    (deliveries n before).state.commitIndex ≤ (deliveries n events).state.commitIndex
  applied_le : ∀ before after, events = before ++ after →
    (deliveries n before).state.lastApplied ≤ (deliveries n events).state.lastApplied
  same_commit : (∀ r, r ∈ successes n events ↔ r ∈ successes n events') →
    (deliveries n events).state.commitIndex = (deliveries n events').state.commitIndex
  same_applied : (∀ r, r ∈ successes n events ↔ r ∈ successes n events') →
    (deliveries n events).state.lastApplied = (deliveries n events').state.lastApplied

/-- **Late and repeated requests undo nothing.** -/
theorem redelivery_harmless {L : List LogEntry} (hL : Whole L) {n : RaftNode}
    (hn : Consistent L n) {t : Int} {events events' : List FollowerEvent}
    (hevents : ∀ event ∈ events, event.FromLeader L t)
    (hevents' : ∀ event ∈ events', event.FromLeader L t) : Redelivered L n events events' := by
  have hsplit : ∀ {before after : List FollowerEvent}, events = before ++ after →
      Consistent L (deliveries n before) ∧
      (∀ r ∈ successes n before,
        (deliveries n before).log.Agrees L (r.prevLogIndex + r.entries.length)) ∧
      deliveries n events = deliveries (deliveries n before) after ∧
      ∀ event ∈ after, event.FromLeader L t := by
    rintro before after rfl
    obtain ⟨hend, -, hbrings, -, -⟩ := hn.run hL fun e he =>
      hevents e (List.mem_append_left _ he)
    exact ⟨hend, hbrings, List.foldl_append, fun e he => hevents e (List.mem_append_right _ he)⟩
  obtain ⟨hcommit, happlied⟩ := hn.ends hL hevents
  obtain ⟨hcommit', happlied'⟩ := hn.ends hL hevents'
  refine ⟨fun before after h r hr i hi => ?_, fun before after h => ?_, fun before after h => ?_,
    fun hsame => ?_, fun hsame => ?_⟩
  · obtain ⟨hmid, hbrings, hrun, hafter⟩ := hsplit h
    rw [hrun]
    obtain ⟨-, hkeeps, -⟩ := hmid.run hL hafter
    rcases Int.lt_or_le (deliveries (deliveries n before) after).log.baseIndex i with hlt | hle
    · exact Or.inr (hkeeps _ (hbrings r hr) i hlt hi)
    · exact Or.inl hle
  · obtain ⟨hmid, -, hrun, hafter⟩ := hsplit h
    rw [hrun]
    exact (hmid.run hL hafter).2.2.2.1
  · obtain ⟨hmid, -, hrun, hafter⟩ := hsplit h
    rw [hrun]
    exact (hmid.run hL hafter).2.2.2.2
  · refine eq_of_forall_le_iff fun k => ?_
    rw [hcommit k, hcommit' k]
    simp only [hsame]
  · refine eq_of_forall_le_iff fun k => ?_
    rw [happlied k, happlied' k]
    simp only [hsame]

/-! ## 5. A late request, and a follower without Log Matching -/

theorem FollowerOf.consistent {L : List LogEntry} {n : RaftNode} (hL : Whole L)
    (hf : FollowerOf L n) : Consistent L n := by
  have hbase := n.log.base_nonneg
  have hread : ∀ {k : Nat} {e : LogEntry}, L[k]? = some e → e.index = k + 1 := fun he => hL.index he
  refine ⟨fun y hy x hx hterm i hi hle => ?_, fun i hi hle => ?_, ?_⟩
  · obtain ⟨k, hk⟩ := List.getElem?_of_mem hy
    have hidx := hread hk
    rw [hidx] at hx hle
    obtain ⟨j, rfl⟩ : ∃ j : Nat, i = j + 1 := ⟨(i - 1).toNat, by omega⟩
    have hsame := hf.matching k x y hx hk hterm j (by omega) (by omega)
    have hjk : j < L.length := by
      have := (List.getElem?_eq_some_iff.mp hk).1
      omega
    have hget := List.getElem?_eq_getElem hjk
    exact ⟨L[j], List.getElem_mem hjk, hread hget, hsame.trans hget⟩
  · obtain ⟨j, rfl⟩ : ∃ j : Nat, i = j + 1 := ⟨(i - 1).toNat, by omega⟩
    have hjk : j < L.length := by
      have := hf.known
      omega
    have hget := List.getElem?_eq_getElem hjk
    exact ⟨L[j], List.getElem_mem hjk, hread hget,
      (hf.committed j (by omega) (by omega)).trans hget⟩
  · rw [hf.applied]
    exact hf.base_le

/-- What the leader of term 2 sends with all of its log, and what it sent with two entries. -/
def fullRequest : AppendEntriesRequest := ⟨2, "a", 1, 1, leaderLog.drop 1, 2⟩

def shortRequest : AppendEntriesRequest := ⟨2, "a", 1, 1, (leaderLog.take 2).drop 1, 1⟩

theorem fullRequest_built : BuiltIn leaderLog 2 fullRequest :=
  ⟨⟨["b"], fun _ => 2, fun _ => 0, 0⟩, { nodeId := "a", currentTerm := 2, commitIndex := 2 },
    { entries := leaderLog }, "b",
    ⟨⟨leaderLog, 0, List.prefix_refl _, Shows.full rfl⟩, by decide⟩, rfl, rfl⟩

theorem shortRequest_built : BuiltIn leaderLog 2 shortRequest :=
  ⟨⟨["b"], fun _ => 2, fun _ => 0, 0⟩, { nodeId := "a", currentTerm := 2, commitIndex := 1 },
    { entries := leaderLog.take 2 }, "b",
    ⟨⟨leaderLog.take 2, 0, List.take_prefix _ _, Shows.full rfl⟩, by decide⟩, rfl, rfl⟩

/-- The shorter request arrives late, and again after a snapshot. -/
def lateEvents : List FollowerEvent :=
  [.deliver ⟨0, 1500⟩ fullRequest, .deliver ⟨0, 1500⟩ shortRequest, .createSnapshot,
    .deliver ⟨0, 1500⟩ shortRequest]

def orderedEvents : List FollowerEvent :=
  [.deliver ⟨0, 1500⟩ shortRequest, .deliver ⟨0, 1500⟩ fullRequest]

theorem redelivery_harmless_late :
    successes strayFollower lateEvents = [fullRequest, shortRequest] ∧
    successes strayFollower orderedEvents = [shortRequest, fullRequest] ∧
    Redelivered leaderLog strayFollower lateEvents orderedEvents := by
  refine ⟨by rfl, by rfl, redelivery_harmless leaderLog_whole
    (strayFollower_of.consistent leaderLog_whole) (t := 2) ?_ ?_⟩
  · intro event he
    simp only [lateEvents, List.mem_cons, List.not_mem_nil, or_false] at he
    rcases he with rfl | rfl | rfl | rfl
    · exact fullRequest_built
    · exact shortRequest_built
    · trivial
    · exact shortRequest_built
  · intro event he
    simp only [orderedEvents, List.mem_cons, List.not_mem_nil, or_false] at he
    rcases he with rfl | rfl
    · exact shortRequest_built
    · exact fullRequest_built

/-- The log of another leader of term 2. -/
def secondLeaderLog : List LogEntry :=
  [⟨1, 2, ⟨.put, "x", some "1"⟩⟩, ⟨2, 2, ⟨.put, "y", some "2"⟩⟩]

/-- A follower with the second of its entries on top of an entry of its own. -/
def mixedFollower : RaftNode where
  nodeId := "b"
  members := threeMembers
  state := { nodeId := "b", currentTerm := 2 }
  snapshot := {}
  log := { entries := [⟨1, 1, ⟨.delete, "x", none⟩⟩, ⟨2, 2, ⟨.put, "y", some "2"⟩⟩] }
  store := {}
  timer := ⟨1500⟩

/-- **To have the same entry where index and term are the same is not enough**: a heartbeat at index
2 is answered with success, and the follower has another entry at index 1. -/
theorem matching_entry_only : Whole secondLeaderLog ∧
    (∀ y ∈ secondLeaderLog, ∀ x, mixedFollower.log.get y.index = some x → x.term = y.term → x = y) ∧
    mixedFollower.log.Agrees secondLeaderLog mixedFollower.state.commitIndex ∧
    mixedFollower.state.lastApplied = mixedFollower.state.commitIndex ∧
    BuiltIn secondLeaderLog 2 ⟨2, "a", 2, 2, [], 0⟩ ∧
    FollowerEvent.accepts mixedFollower (.deliver ⟨0, 1500⟩ ⟨2, "a", 2, 2, [], 0⟩) =
      some ⟨2, "a", 2, 2, [], 0⟩ ∧
    ¬ HoldsEntry secondLeaderLog
      (FollowerEvent.run mixedFollower (.deliver ⟨0, 1500⟩ ⟨2, "a", 2, 2, [], 0⟩)) 1 := by
  refine ⟨⟨by decide, by decide, by decide⟩, ?_, fun i hi hle => ?_, rfl, ?_, rfl, ?_⟩
  · intro y hy x hx hterm
    simp only [secondLeaderLog, List.mem_cons, List.not_mem_nil, or_false] at hy
    rcases hy with rfl | rfl
    · cases hx
      exact absurd hterm (by decide)
    · cases hx
      rfl
  · exact absurd hi (not_lt.mpr hle)
  · exact ⟨⟨["b"], fun _ => 3, fun _ => 0, 0⟩, { nodeId := "a", currentTerm := 2 },
      { entries := secondLeaderLog }, "b",
      ⟨⟨secondLeaderLog, 0, List.prefix_refl _, Shows.full rfl⟩, by decide⟩, rfl, rfl⟩
  · rintro (hle | ⟨e, he, -, hget⟩)
    · exact absurd hle (by decide)
    · have hheld : (FollowerEvent.run mixedFollower
          (.deliver ⟨0, 1500⟩ ⟨2, "a", 2, 2, [], 0⟩)).log.get 1 =
            some ⟨1, 1, ⟨.delete, "x", none⟩⟩ := rfl
      rw [hheld] at hget
      cases hget
      exact absurd he (by decide)

end PyRaftKv
