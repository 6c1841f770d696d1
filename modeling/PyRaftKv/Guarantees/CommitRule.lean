/-
# The commit rule of the leader, exactly

`advance_commit_index` tests one index, the value in the middle of the sorted progress values.  On
a log whose terms do not decrease that one index decides: what a majority has reached is below it,
and an entry below one of an older term is of an older term.
-/
import PyRaftKv.Refinement.Leading
import PyRaftKv.Refinement.Merging

namespace PyRaftKv

/-! ## 1. The middle of a sorted list -/

/-- The `k`-th value in descending order is as large as `x` exactly if more than `k` values are. -/
theorem le_iff_count {xs : List Int} {k : Nat} {x y : Int}
    (hy : (xs.insertionSort (· ≥ ·))[k]? = some y) : x ≤ y ↔ k + 1 ≤ xs.countP (x ≤ ·) := by
  constructor
  · intro hxy
    refine (count_of_sorted hy).trans (List.countP_mono_left fun z _ hz => ?_)
    rw [decide_eq_true_eq] at hz ⊢
    exact hxy.trans hz
  · intro hcount
    by_contra hlt
    set s := xs.insertionSort (· ≥ ·) with hs
    obtain ⟨hk, hyk⟩ := List.getElem?_eq_some_iff.mp hy
    have hsorted : s.Pairwise (· ≥ ·) := List.pairwise_insertionSort _ xs
    -- from position `k` on every value is below `x`
    have hnone : (s.drop k).countP (x ≤ ·) = 0 := by
      rw [List.countP_eq_zero]
      intro z hz
      obtain ⟨i, hi⟩ := List.mem_iff_getElem?.mp hz
      rw [List.getElem?_drop] at hi
      obtain ⟨hik, rfl⟩ := List.getElem?_eq_some_iff.mp hi
      rw [decide_eq_true_eq]
      rcases Nat.eq_zero_or_pos i with rfl | hpos
      · exact fun h => hlt (hyk ▸ h)
      · have := List.pairwise_iff_getElem.mp hsorted k (k + i) hk hik (by omega)
        rw [hyk] at this
        exact fun h => hlt (h.trans this)
    have : k + 1 ≤ k := by
      calc k + 1 ≤ xs.countP (x ≤ ·) := hcount
        _ = s.countP (x ≤ ·) := ((List.perm_insertionSort _ xs).countP_eq _).symm
        _ = (s.take k ++ s.drop k).countP (x ≤ ·) := by rw [List.take_append_drop]
        _ = (s.take k).countP (x ≤ ·) := by rw [List.countP_append, hnone, Nat.add_zero]
        _ ≤ (s.take k).length := List.countP_le_length
        _ ≤ k := List.length_take_le _ _
    omega

/-! ## 2. The rule -/

section Rule

variable {r : LeaderReplication} {state : RaftState} {log : RaftLog} {members : Members}

/-- How far a member's log is known to reach: the leader's own to its last index. -/
def LeaderReplication.progress (r : LeaderReplication) (state : RaftState) (log : RaftLog)
    (u : NodeId) : Int :=
  if u = state.nodeId then log.lastIndex else r.matchIndex u

/-- The index `k` is new, its entry is of the leader's term, and strictly more than half of the
members reach it. -/
structure Committable (r : LeaderReplication) (state : RaftState) (log : RaftLog)
    (members : Members) (k : Int) : Prop where
  new : state.commitIndex < k
  term : ∃ e ∈ log.get k, e.term = state.currentTerm
  majority : members.size < 2 * members.ids.countP fun u => k ≤ r.progress state log u

theorem Members.others_eq_erase (m : Members) (v : NodeId) : m.others v = m.ids.erase v := by
  rw [List.Nodup.erase_eq_filter m.nodup]
  unfold Members.others
  congr 1
  funext u
  simp [bne, beq_eq_decide]

/-- The progress values of the members are those that the leader sorts. -/
theorem count_progress (hself : state.nodeId ∈ members)
    (hfollowers : r.followers = members.others state.nodeId) (k : Int) :
    (log.lastIndex :: r.followers.map r.matchIndex).countP (k ≤ ·) =
      members.ids.countP fun u => k ≤ r.progress state log u := by
  have hvalue : r.followers.map r.matchIndex = r.followers.map (r.progress state log) := by
    refine List.map_congr_left fun u hu => ?_
    rw [hfollowers] at hu
    unfold LeaderReplication.progress
    rw [if_neg (Members.mem_others.mp hu).2]
  have hleader : log.lastIndex = r.progress state log state.nodeId := by
    unfold LeaderReplication.progress
    rw [if_pos rfl]
  rw [hvalue, hleader, ← List.map_cons, hfollowers, Members.others_eq_erase,
    ((List.perm_cons_erase hself).symm.map _).countP_eq, List.countP_map]
  rfl

/-- The value that `advance_commit_index` tests. -/
theorem replicatedIndexes_middle (log : RaftLog) (hself : state.nodeId ∈ members)
    (hfollowers : r.followers = members.others state.nodeId) :
    ∃ candidate, (r.replicatedIndexes log)[members.size / 2]? = some candidate ∧
      (∀ k, k ≤ candidate ↔
        members.size < 2 * members.ids.countP fun u => k ≤ r.progress state log u) := by
  have hlen : (r.replicatedIndexes log).length = members.size := by
    have hperm := (List.perm_cons_erase hself).length_eq
    unfold LeaderReplication.replicatedIndexes Members.size
    rw [List.length_insertionSort, List.length_cons, List.length_map, hfollowers,
      Members.others_eq_erase, hperm, List.length_cons]
  have hpos : 0 < members.size := List.length_pos_of_mem hself
  have hlt : members.size / 2 < (r.replicatedIndexes log).length := by omega
  refine ⟨_, List.getElem?_eq_getElem hlt, fun k => ?_⟩
  rw [le_iff_count (List.getElem?_eq_getElem hlt), count_progress hself hfollowers]
  omega

/-- **`advance_commit_index` is Raft's commit rule.**  The new commit index is the largest index
that may be committed, and the old one if there is none. -/
theorem commit_rule_exact (hself : state.nodeId ∈ members)
    (hfollowers : r.followers = members.others state.nodeId)
    (hmatch : ∀ f ∈ r.followers, r.matchIndex f ≤ log.lastIndex)
    (hmono : ∀ i j x y, i ≤ j → log.get i = some x → log.get j = some y → x.term ≤ y.term)
    (hterm : ∀ i x, log.get i = some x → x.term ≤ state.currentTerm)
    (hbase : log.baseIndex ≤ state.commitIndex) :
    IsGreatest {k | Committable r state log members k}
        (r.advanceCommitIndex state log members) ∨
      (∀ k, ¬ Committable r state log members k) ∧
        r.advanceCommitIndex state log members = state.commitIndex := by
  obtain ⟨candidate, hc, hmaj⟩ := replicatedIndexes_middle log hself hfollowers
  unfold LeaderReplication.advanceCommitIndex
  rw [hc]
  simp only
  split
  · -- a majority has reached nothing new
    rename_i hle
    refine Or.inr ⟨fun k hk => ?_, rfl⟩
    have := (hmaj k).mpr hk.majority
    have := hk.new
    omega
  rename_i hnew
  -- the candidate is an index of the log
  have hreach : candidate ≤ log.lastIndex := by
    by_contra hgt
    have hcount := (hmaj candidate).mp le_rfl
    have hzero : members.ids.countP (fun u => candidate ≤ r.progress state log u) = 0 := by
      rw [List.countP_eq_zero]
      intro u hu
      rw [decide_eq_true_eq]
      unfold LeaderReplication.progress
      split
      · omega
      · rename_i hne
        have := hmatch u (hfollowers ▸ Members.mem_others.mpr ⟨hu, hne⟩)
        omega
    omega
  obtain ⟨entry, hget⟩ : ∃ entry, log.get candidate = some entry :=
    Option.isSome_iff_exists.mp (RaftLog.get_isSome (by omega) hreach)
  rw [hget]
  simp only
  split
  · -- an older entry: what is below it is older too
    rename_i hold
    refine Or.inr ⟨fun k hk => ?_, rfl⟩
    obtain ⟨e, he, het⟩ := hk.term
    have hle := hmono k candidate e entry ((hmaj k).mpr hk.majority) he hget
    have := hterm candidate entry hget
    omega
  · rename_i hcur
    refine Or.inl ⟨⟨by omega, ⟨entry, hget, not_not.mp hcur⟩, (hmaj candidate).mp le_rfl⟩, ?_⟩
    exact fun k hk => (hmaj k).mpr hk.majority

end Rule

/-- A leader of term 1 with two entries, one of which one of its three followers has. -/
def leaderOfFour : RaftState where
  nodeId := "a"
  currentTerm := 1
  role := .leader

def logOfFour : RaftLog := twoDeletes

def fourMembers : Members where
  ids := ["a", "b", "c", "d"]

def tableOfFour : LeaderReplication where
  followers := ["b", "c", "d"]
  nextIndex := fun _ => 3
  matchIndex := fun f => if f = "b" then 2 else if f = "c" then 1 else 0
  logObject := 0

/-- Two of four members are no majority: only the first entry is committed. -/
theorem commit_rule_exact_four :
    IsGreatest {k | Committable tableOfFour leaderOfFour logOfFour fourMembers k} 1 := by
  have hone : ∀ i x, logOfFour.get i = some x → x.term = 1 := by
    intro i x h
    have := List.mem_of_getElem? (RaftLog.get_eq_some.mp h).2
    simp only [logOfFour, twoDeletes, List.mem_cons, List.not_mem_nil, or_false] at this
    rcases this with rfl | rfl <;> rfl
  have hadvance : tableOfFour.advanceCommitIndex leaderOfFour logOfFour fourMembers = 1 := by
    decide
  have hrule := @commit_rule_exact tableOfFour leaderOfFour logOfFour fourMembers
    (by decide) (by decide) (by decide)
    (fun i j x y _ hx hy => by rw [hone i x hx, hone j y hy])
    (fun i x hx => by rw [hone i x hx]; decide) (by decide)
  rw [hadvance] at hrule
  rcases hrule with hrule | ⟨-, hrule⟩
  · exact hrule
  · exact absurd hrule (by decide)

end PyRaftKv
