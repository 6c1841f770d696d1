/-
# Catching up by snapshot is catching up by log

A leader brings a follower up to date in one of two ways: it sends its snapshot at some compaction
point and then the entries above it, or it sends the entries from an index where the two logs
match.  `catch_up_equal` says that it makes no difference: both are accepted and leave the same
store, the same indexes and the same entries above the compaction point.

`FollowerOf` says what is assumed of the follower, in terms of its own log above its own boundary.
`Aligned` says the same of a whole log of which the follower's log is a window (`Shows`).
-/
import PyRaftKv.Refinement.Following

open Consensus

namespace PyRaftKv

/-! ## 1. The requests, the follower and the outcome -/

/-- The snapshot at `b` of a leader with the log `L`, where `S` is the store at `b`. -/
def snapshotRequest (L : List LogEntry) (b : Nat) (S : KVStore) (term : Int) (leaderId : NodeId) :
    InstallSnapshotRequest where
  term := term
  leaderId := leaderId
  lastIncludedIndex := b
  lastIncludedTerm := lastStamp (L.take b)
  state := S.snapshot

/-- The entries above `k` of a leader with the log `L` and the commit index `c`. -/
def suffixRequest (L : List LogEntry) (k c : Nat) (term : Int) (leaderId : NodeId) :
    AppendEntriesRequest where
  term := term
  leaderId := leaderId
  prevLogIndex := k
  prevLogTerm := lastStamp (L.take k)
  entries := L.drop k
  leaderCommit := c

/-- A follower of a leader with the log `L`.  Its log and `L` match, what it has committed is in
`L`, and, as between any two calls, its snapshot ends where its log begins and its store has
applied what is committed. -/
structure FollowerOf (L : List LogEntry) (n : RaftNode) : Prop where
  boundary : n.snapshot.lastIncludedIndex = n.log.baseIndex
  base_le : n.log.baseIndex ≤ n.state.commitIndex
  commit_le : n.state.commitIndex ≤ n.log.lastIndex
  known : n.state.commitIndex ≤ L.length
  baseTerm : n.log.baseTerm = lastStamp (L.take n.log.baseIndex.toNat)
  committed : ∀ i : Nat, n.log.baseIndex ≤ i → i < n.state.commitIndex →
    n.log.get (i + 1) = L[i]?
  matching : ∀ (i : Nat) (x y : LogEntry), n.log.get (i + 1) = some x → L[i]? = some y →
    x.term = y.term → ∀ j : Nat, n.log.baseIndex ≤ j → j ≤ i → n.log.get (j + 1) = L[j]?
  applied : n.state.lastApplied = n.state.commitIndex
  store : Replays (L.take n.state.commitIndex.toNat) n.store

/-- Two nodes that are equally far. -/
structure CaughtUp (b : Nat) (n n' : RaftNode) : Prop where
  store : n.store = n'.store
  commitIndex : n.state.commitIndex = n'.state.commitIndex
  lastApplied : n.state.lastApplied = n'.state.lastApplied
  lastIndex : n.log.lastIndex = n'.log.lastIndex
  lastTerm : n.log.lastTerm = n'.log.lastTerm
  entries : ∀ i : Int, b < i → n.log.get i = n'.log.get i

/-! ## 2. The whole log of a follower -/

/-- The follower's log is a window on `l`, and `l` and `L` match. -/
structure Aligned (L l : List LogEntry) (n : RaftNode) (b a : Nat) : Prop where
  shows : Shows n.log l b
  contiguous : Contiguous 0 l
  snapshot : n.snapshot.lastIncludedIndex = b
  base_le : b ≤ a
  commit_le : a ≤ l.length
  known : a ≤ L.length
  committed : l.take a = L.take a
  matching : ∀ (i : Nat) (x y : LogEntry), l[i]? = some x → L[i]? = some y → x.term = y.term →
    l.take (i + 1) = L.take (i + 1)
  commitIndex : n.state.commitIndex = a
  lastApplied : n.state.lastApplied = a
  store : Replays (L.take a) n.store

theorem take_eq_of_getElem? {l m : List LogEntry} {k : Nat}
    (h : ∀ i < k, l[i]? = m[i]?) : l.take k = m.take k := by
  refine List.ext_getElem? fun i => ?_
  rw [List.getElem?_take, List.getElem?_take]
  split
  · rename_i hi
    exact h i hi
  · rfl

theorem getElem?_of_take_eq {l m : List LogEntry} {k i : Nat} (h : l.take k = m.take k)
    (hi : i < k) : l[i]? = m[i]? := by
  have := congrArg (·[i]?) h
  simpa only [List.getElem?_take, if_pos hi] using this

/-- Below its boundary the follower's log was committed, so `L` says what it was. -/
theorem FollowerOf.aligned {L : List LogEntry} {n : RaftNode} (hL : Whole L)
    (hf : FollowerOf L n) : ∃ l b a, n.log.baseIndex = (b : Nat) ∧ Aligned L l n b a := by
  obtain ⟨b, hb⟩ := Int.eq_ofNat_of_zero_le n.log.base_nonneg
  have hbase := hf.base_le
  obtain ⟨a, ha⟩ := Int.eq_ofNat_of_zero_le (n.log.base_nonneg.trans hbase)
  have hknown := hf.known
  have hcommit := hf.commit_le
  have hba : b ≤ a := by omega
  have haL : a ≤ L.length := by omega
  have hlen : (L.take b).length = b := List.length_take_of_le (hba.trans haL)
  have htake : (L.take b ++ n.log.entries).take b = L.take b := by
    rw [List.take_append_of_le_length hlen.ge, List.take_take, min_self]
  have hshows : Shows n.log (L.take b ++ n.log.entries) b := by
    refine ⟨hb, ?_, ?_, by rw [List.length_append, hlen]; omega⟩
    · rw [htake, hf.baseTerm, hb]
      rfl
    · rw [List.drop_append_of_le_length hlen.ge, List.drop_eq_nil_of_le hlen.le, List.nil_append]
  have hbelow : ∀ i < b, (L.take b ++ n.log.entries)[i]? = L[i]? :=
    fun i hi => getElem?_of_take_eq htake hi
  refine ⟨_, b, a, hb, hshows, ?_, hf.boundary.trans hb, hba, ?_, haL, ?_, ?_, ha,
    hf.applied.trans ha, ?_⟩
  · intro i e he
    rcases Nat.lt_or_ge i b with hi | hi
    · rw [hbelow i hi] at he
      exact hL.contiguous i e he
    · rw [List.getElem?_append_right (by rw [hlen]; exact hi), hlen] at he
      have := n.log.contiguous _ e he
      omega
  · have := hshows.lastIndex
    omega
  · refine take_eq_of_getElem? fun i hi => ?_
    rcases Nat.lt_or_ge i b with hib | hib
    · exact hbelow i hib
    · rw [← hshows.get_getElem? hib]
      exact hf.committed i (by omega) (by omega)
  · intro i x y hx hy hterm
    refine take_eq_of_getElem? fun j hj => ?_
    rcases Nat.lt_or_ge j b with hjb | hjb
    · exact hbelow j hjb
    · rw [← hshows.get_getElem? hjb]
      refine hf.matching i x y ?_ hy hterm j (by omega) (by omega)
      rw [hshows.get_getElem? (by omega), hx]
  · have := hf.store
    rwa [ha] at this

/-! ## 3. Catching up by log -/

/-- What changed in a log is written without an error. -/
theorem persistLogChange_ok (log : RaftLog) (after : List LogEntry) (n : RaftNode) :
    ∃ ws, RaftNode.persistLogChange log.entries after n = ⟨.ok (), n, ws⟩ := by
  unfold RaftNode.persistLogChange
  split
  · exact ⟨[], rfl⟩
  simp only
  rcases hreplaced : log.entries[RaftNode.commonPrefixLength log.entries after]? with _ | replaced
  · exact ⟨_, rfl⟩
  · have hidx := log.contiguous _ replaced hreplaced
    have hbase := log.base_nonneg
    have hsuffix : ∀ suffix, replaceLogSuffix replaced.index suffix =
        .ok (.appendLog (.truncate replaced.index) :: appendLogEntries suffix) := by
      intro suffix
      unfold replaceLogSuffix
      rw [if_neg (by omega)]
    simp only [hsuffix, NodeM.bind_run, NodeM.lift_ok_run, NodeM.andThen_ok, NodeM.behind_nil,
      NodeM.persist_run]
    exact ⟨_, rfl⟩

/-- **The suffix of `L` from a matching index** is accepted. -/
theorem Aligned.append {L l : List LogEntry} {n : RaftNode} {b a : Nat} (hf : Aligned L l n b a)
    (hL : Whole L) {k c : Nat} (hc : c ≤ L.length) (hbk : b ≤ k) (hkl : k ≤ l.length)
    (hkL : k ≤ L.length) (heq : l.take k = L.take k) {term : Int}
    (hterm : n.state.currentTerm ≤ term) (leaderId : NodeId) (clock : Clock) :
    ∃ n' l' ws, RaftNode.handleAppendEntries clock (suffixRequest L k c term leaderId) n =
        ⟨.ok ⟨term, true⟩, n', ws⟩ ∧ Shows n'.log l' b ∧ Synced l L l' ∧
      n'.state.commitIndex = (max a c : Nat) ∧ n'.state.lastApplied = (max a c : Nat) ∧
      Replays (L.take (max a c)) n'.store := by
  have hkeep : ∀ l', Synced l L l' → l.take a <+: l' := by
    rintro l' (⟨-, rfl⟩ | ⟨-, rfl⟩)
    · exact List.take_prefix _ _
    · rw [hf.committed]
      exact List.take_prefix _ _
  obtain ⟨log', l', store', hrun, hs', hsynced, hrep⟩ := handleAppendEntries_takes
    n.state n.store (suffixRequest L k c term leaderId) (c := c)
    hf.shows hL hterm rfl rfl rfl rfl hc hbk hkl hkL heq
    (fun i x y hx hy hxy => by
      have := getElem?_of_take_eq (hf.matching i x y hx hy hxy) (Nat.lt_succ_self i)
      rw [hx, hy] at this
      exact Option.some.inj this)
    hf.commitIndex hf.lastApplied hf.base_le hf.commit_le hkeep (hf.committed ▸ hf.store)
  rw [take_eq_of_isPrefix hsynced.window (max_le hf.known hc)] at hrep
  set s : RaftState := { n.state.follow term (some leaderId) with
    commitIndex := (max a c : Nat), lastApplied := (max a c : Nat) } with hs
  obtain ⟨ws, hpersist⟩ := persistLogChange_ok n.log log'.entries
    { n with state := s, log := log', store := store' }
  have hrun' : PyRaftKv.handleAppendEntries n.state n.log (suffixRequest L k c term leaderId)
      n.store = (.ok ⟨term, true⟩, s, log', store') := hrun
  simp only [RaftNode.handleAppendEntries, NodeM.bind_run, NodeM.get_run, NodeM.andThen_ok,
    NodeM.behind_nil, NodeM.modify_run, hrun', NodeM.lift_ok_run, hpersist, NodeM.ite_run,
    RaftNode.persistState, NodeM.persist_run, NodeM.behind_mk, if_true, NodeM.pure_run,
    dropReplication_eq (n := { n with
      state := s, log := log', store := store', timer := .reset clock.now clock.timeout }) rfl]
  split
  · exact ⟨_, l', _, rfl, hs', hsynced, rfl, rfl, hrep⟩
  · exact ⟨_, l', _, rfl, hs', hsynced, rfl, rfl, hrep⟩

/-! ## 4. Catching up by snapshot -/

/-- The follower has the boundary at `k`, so it has all of `L` up to there. -/
theorem Aligned.take_eq {L l : List LogEntry} {n : RaftNode} {b a : Nat} (hf : Aligned L l n b a)
    {k : Nat} (hkL : k ≤ L.length) (hhas : n.log.termAt k = some (lastStamp (L.take k))) :
    b ≤ k ∧ k ≤ l.length ∧ l.take k = L.take k := by
  obtain ⟨i, hi, hbk, hkl, hstamp⟩ := hf.shows.termAt_eq_some.mp hhas
  obtain rfl : k = i := by omega
  refine ⟨hbk, hkl, ?_⟩
  rcases k with _ | k
  · rfl
  · have hx : l[k]? = some l[k] := List.getElem?_eq_getElem hkl
    have hy : L[k]? = some L[k] := List.getElem?_eq_getElem hkL
    rw [lastStamp_take_succ hx, lastStamp_take_succ hy] at hstamp
    exact hf.matching k _ _ hx hy hstamp.symm

/-- What the boundary at `k` makes of the follower's log: the part of it that stays is `L`'s. -/
theorem Aligned.boundary {L l : List LogEntry} {n : RaftNode} {b a : Nat} (hf : Aligned L l n b a)
    {k : Nat} (hbk : b ≤ k) (hkL : k ≤ L.length) :
    ∃ log' l', n.log.installSnapshotBoundary k (lastStamp (L.take k)) = .ok log' ∧
      Shows log' l' k ∧ max a k ≤ l'.length ∧ l'.take (max a k) = L.take (max a k) ∧
      (l' = l ∧ l.take k = L.take k ∧ k ≤ l.length ∨ l' = L.take k ∧ ¬ L <+: l) := by
  have hlen : (L.take k).length = k := List.length_take_of_le hkL
  by_cases hhas : n.log.termAt k = some (lastStamp (L.take k))
  · obtain ⟨-, hkl, heq⟩ := hf.take_eq hkL hhas
    obtain ⟨log', hinst, hs'⟩ := hf.shows.install_kept hbk hkl
    rw [heq] at hinst
    refine ⟨log', l, hinst, hs', max_le hf.commit_le hkl, ?_, Or.inl ⟨rfl, heq, hkl⟩⟩
    rcases max_choice a k with hmax | hmax
    · rw [hmax, hf.committed]
    · rw [hmax, heq]
  · -- what is committed reaches no further than the boundary
    have hhas' : k ≤ l.length → l.take k ≠ L.take k := fun hkl heq =>
      hhas (by rw [hf.shows.termAt hbk hkl, heq])
    have hak : a ≤ k := by
      by_contra hlt
      have hca := hf.commit_le
      refine hhas' (by omega) ?_
      rw [← min_eq_left (show k ≤ a by omega), ← List.take_take, hf.committed, List.take_take]
    have hlt : b < k := by
      refine hbk.lt_of_ne fun hb => hhas' (hb ▸ hf.shows.le) ?_
      have hba := hf.base_le
      obtain rfl : a = k := by omega
      exact hf.committed
    obtain ⟨log', hinst, hs'⟩ := hf.shows.install_fresh (m := L.take k) (by omega)
      (by rw [hlen]; exact hhas)
    rw [hlen] at hinst hs'
    refine ⟨log', L.take k, hinst, hs', by rw [hlen]; exact max_le hak le_rfl, ?_,
      Or.inr ⟨rfl, fun hp => ?_⟩⟩
    · rw [max_eq_right hak, List.take_take, min_self]
    · exact hhas' (hkL.trans hp.length_le) (take_eq_of_isPrefix hp hkL)

/-- **The snapshot of `L` at `k`** is accepted.  The follower keeps its log where it has the
boundary, and gives it up for the boundary where it does not. -/
theorem Aligned.install {L l : List LogEntry} {n : RaftNode} {b a : Nat} (hf : Aligned L l n b a)
    (hL : Whole L) {k : Nat} (hbk : b ≤ k) (hkL : k ≤ L.length) {S : KVStore}
    (hS : Replays (L.take k) S) {term : Int} (hterm : n.state.currentTerm ≤ term)
    (leaderId : NodeId) (clock : Clock) :
    ∃ n' l' ws, RaftNode.handleInstallSnapshot clock (snapshotRequest L k S term leaderId) n =
        ⟨.ok ⟨term, true⟩, n', ws⟩ ∧ n'.state.currentTerm = term ∧
      (l' = l ∧ l.take k = L.take k ∧ k ≤ l.length ∨ l' = L.take k ∧ ¬ L <+: l) ∧
      Aligned L l' n' k (max a k) := by
  obtain ⟨log', l', hinst, hs', hlong, hsame, hl'⟩ := hf.boundary hbk hkL
  obtain ⟨snapshot, hnew, hcap⟩ := RaftSnapshot.new_captures hL k S.snapshot hS
  have hstate : snapshot.state = S.snapshot :=
    congrArg KVStore.data (hcap.state.unique hS)
  have hcopy : n.log.copy = .ok n.log := by
    refine hf.shows.new_of_contiguous hf.contiguous ?_
    have hbase : l.take b = L.take b := by
      have hba := hf.base_le
      rw [← min_eq_left hba, ← List.take_take, hf.committed, List.take_take]
    rw [hf.shows.baseTerm, hbase]
    exact (hL.of_isPrefix (List.take_prefix _ _)).lastStamp_nonneg
  have hnonneg := (hL.of_isPrefix (List.take_prefix k L)).lastStamp_nonneg
  set s := n.state.follow term (some leaderId) with hs
  have hsc : s.commitIndex = a := hf.commitIndex
  obtain ⟨store', happ, hstore⟩ := applyCommittedEntries_valid (c := max a k)
    { s with commitIndex := (max a k : Nat), lastApplied := (k : Int) }
    (n.store.restore snapshot.state) hs'
    (by rw [hsame]; exact fun e he => hL.valid e (List.take_subset _ _ he)) rfl rfl le_rfl
    (le_max_right _ _) hlong (by
      rw [hstate]
      have : l'.take k = L.take k := by
        rw [← min_eq_left (le_max_right a k), ← List.take_take, hsame, List.take_take]
      rw [this]
      exact hS)
  rw [hsame] at hstore
  have hvalid : ¬ ((k : Int) < 0 ∨ lastStamp (L.take k) < 0) := by omega
  have hcovered : ¬ (k : Int) < n.snapshot.lastIncludedIndex := by rw [hf.snapshot]; omega
  have hguard : ¬ (s.commitIndex > k ∧ n.log.termAt k ≠ some (lastStamp (L.take k))) := by
    rintro ⟨hgt, hne⟩
    rw [hsc] at hgt
    have hca := hf.commit_le
    refine hne ?_
    have : l.take k = L.take k := by
      rw [← min_eq_left (show k ≤ a by omega), ← List.take_take, hf.committed, List.take_take]
    rw [hf.shows.termAt hbk (by omega), this]
  have hmax : max s.commitIndex (k : Int) = (max a k : Nat) := by
    rw [hsc]
    omega
  have hnotlong : ¬ ((max a k : Nat) : Int) > log'.lastIndex := by
    rw [hs'.lastIndex]
    omega
  simp only [RaftNode.handleInstallSnapshot, snapshotRequest, NodeM.bind_run, NodeM.get_run,
    NodeM.andThen_ok, NodeM.ite_run, if_neg (not_lt.mpr hterm), RaftNode.becomeFollower,
    RaftState.becomeFollower_ok _ hterm, NodeM.lift_ok_run, NodeM.modify_run, if_neg hvalid,
    if_neg hcovered, ← hs, if_neg hguard, hnew, hcopy, hinst, hmax, if_neg hnotlong,
    NodeM.persist_run, RaftNode.applyCommitted, happ, NodeM.behind_mk, RaftNode.persistState,
    NodeM.pure_run]
  refine ⟨_, l', _, rfl, rfl, hl', hs', ?_, ?_, le_max_right _ _, hlong,
    max_le hf.known hkL, hsame, ?_, rfl, rfl, hstore⟩
  · rcases hl' with ⟨rfl, -⟩ | ⟨rfl, -⟩
    · exact hf.contiguous
    · exact (hL.of_isPrefix (List.take_prefix _ _)).contiguous
  · exact hcap.index
  · rcases hl' with ⟨rfl, -⟩ | ⟨rfl, -⟩
    · exact hf.matching
    · intro i x y hx _ _
      have hi := (List.getElem?_eq_some_iff.mp hx).1
      rw [List.length_take] at hi
      rw [List.take_take, min_eq_left (by omega)]

/-! ## 5. The two ways compared -/

/-- Windows on one whole log that begin no later than `b` read the same above `b`. -/
theorem Shows.get_eq {log log' : RaftLog} {l : List LogEntry} {b b' : Nat} (hs : Shows log l b)
    (hs' : Shows log' l b') (hle : b' ≤ b) {i : Int} (hi : b < i) : log.get i = log'.get i := by
  obtain ⟨j, rfl⟩ : ∃ j : Nat, i = (j : Int) + 1 := ⟨(i - 1).toNat, by omega⟩
  rw [hs.get_getElem? (by omega), hs'.get_getElem? (by omega)]

/-- **Catching up by snapshot equals catching up by log.**  A leader's log is `L`, its commit index
`c`, and `S` its store at `b`.  Its snapshot at `b` and then its entries above `b` are accepted, so
are its entries above any `k` where the logs match, and both leave the follower equally far. -/
theorem catch_up_equal {L : List LogEntry} (hL : Whole L) {b c k : Nat} (hbc : b ≤ c)
    (hc : c ≤ L.length) {S : KVStore} (hS : Replays (L.take b) S) {n : RaftNode}
    (hf : FollowerOf L n) (hbase : n.log.baseIndex ≤ b) (hk : k ≤ L.length)
    (hmatch : n.log.termAt k = some (lastStamp (L.take k))) {term term' term'' : Int}
    (hterm : n.state.currentTerm ≤ term) (hterm' : term ≤ term')
    (hterm'' : n.state.currentTerm ≤ term'') (leaderId leaderId' leaderId'' : NodeId)
    (clock clock' clock'' : Clock) :
    ∃ n₁ n₂ n₃ ws ws' ws'',
      RaftNode.handleInstallSnapshot clock (snapshotRequest L b S term leaderId) n =
        ⟨.ok ⟨term, true⟩, n₁, ws⟩ ∧
      RaftNode.handleAppendEntries clock' (suffixRequest L b c term' leaderId') n₁ =
        ⟨.ok ⟨term', true⟩, n₂, ws'⟩ ∧
      RaftNode.handleAppendEntries clock'' (suffixRequest L k c term'' leaderId'') n =
        ⟨.ok ⟨term'', true⟩, n₃, ws''⟩ ∧ CaughtUp b n₂ n₃ := by
  obtain ⟨l, b₀, a, hb₀, ha⟩ := hf.aligned hL
  have hbL : b ≤ L.length := hbc.trans hc
  obtain ⟨n₁, l₁, ws, hrun₁, hterm₁, hl₁, ha₁⟩ := ha.install hL (k := b) (by omega) hbL hS hterm
    leaderId clock
  have hb₁ : b ≤ l₁.length ∧ l₁.take b = L.take b := by
    rcases hl₁ with ⟨rfl, heq, hle⟩ | ⟨rfl, -⟩
    · exact ⟨hle, heq⟩
    · exact ⟨by rw [List.length_take]; omega, by rw [List.take_take, min_self]⟩
  obtain ⟨n₂, l₂, ws', hrun₂, hs₂, hsync₂, hcommit₂, happlied₂, hstore₂⟩ := ha₁.append hL hc le_rfl
    hb₁.1 hbL hb₁.2 (hterm₁ ▸ hterm') leaderId' clock'
  obtain ⟨hbk, hkl, heq⟩ := ha.take_eq hk hmatch
  obtain ⟨n₃, l₃, ws'', hrun₃, hs₃, hsync₃, hcommit₃, happlied₃, hstore₃⟩ := ha.append hL hc hbk hkl
    hk heq hterm'' leaderId'' clock''
  have hmax : max (max a b) c = max a c := by omega
  rw [hmax] at hcommit₂ happlied₂ hstore₂
  -- both whole logs are the follower's if that reaches through `L`, and else `L`
  have hsame : l₂ = l₃ := by
    rcases hl₁ with ⟨rfl, -, -⟩ | ⟨rfl, hnot⟩
    · rcases hsync₂ with ⟨hp, rfl⟩ | ⟨hp, rfl⟩ <;> rcases hsync₃ with ⟨hp', rfl⟩ | ⟨hp', rfl⟩
      · rfl
      · exact absurd hp hp'
      · exact absurd hp' hp
      · rfl
    · obtain ⟨-, rfl⟩ : ¬ L <+: l ∧ l₃ = L := by
        rcases hsync₃ with ⟨hp', -⟩ | hsync₃
        · exact absurd hp' hnot
        · exact hsync₃
      rcases hsync₂ with ⟨hp, rfl⟩ | ⟨-, rfl⟩
      · exact (List.take_prefix _ _).eq_of_length_le hp.length_le
      · rfl
  subst hsame
  refine ⟨n₁, n₂, n₃, ws, ws', ws'', hrun₁, hrun₂, hrun₃, hstore₂.unique hstore₃,
    hcommit₂.trans hcommit₃.symm, happlied₂.trans happlied₃.symm, ?_, ?_, fun i hi => ?_⟩
  · rw [hs₂.lastIndex, hs₃.lastIndex]
  · rw [hs₂.lastTerm, hs₃.lastTerm]
  · exact hs₂.get_eq hs₃ (by omega) hi

/-- The log of a leader of term 2. -/
def leaderLog : List LogEntry :=
  [⟨1, 1, ⟨.put, "x", some "1"⟩⟩, ⟨2, 2, ⟨.put, "y", some "2"⟩⟩, ⟨3, 2, ⟨.delete, "x", none⟩⟩]

/-- A follower that has committed one entry of it and has another one where the leader has its
second. -/
def strayFollower : RaftNode where
  nodeId := "b"
  members := threeMembers
  state := { nodeId := "b", currentTerm := 1, commitIndex := 1, lastApplied := 1 }
  snapshot := {}
  log := { entries := [⟨1, 1, ⟨.put, "x", some "1"⟩⟩, ⟨2, 1, ⟨.delete, "x", none⟩⟩] }
  store := ({} : KVStore).put "x" "1"
  timer := ⟨1500⟩

theorem leaderLog_whole : Whole leaderLog :=
  ⟨by decide, by decide, by decide⟩

theorem strayFollower_of : FollowerOf leaderLog strayFollower where
  boundary := rfl
  base_le := by decide
  commit_le := by decide
  known := by decide
  baseTerm := rfl
  committed i _ hi := by
    obtain rfl : i = 0 := by
      have : (i : Int) < 1 := hi
      omega
    rfl
  matching i x y hx hy hterm j _ hj := by
    rcases i with _ | _ | i
    · obtain rfl : j = 0 := by omega
      rfl
    · cases hx
      cases hy
      exact absurd hterm (by decide)
    · have hlast := (RaftLog.get_eq_some.mp hx).2
      have := (List.getElem?_eq_some_iff.mp hlast).1
      unfold RaftLog.position at this
      have h2 : (((i : Int) + 1 + 1 + 1) - 0 - 1).toNat < 2 := this
      omega
  applied := rfl
  store := rfl

/-- By its snapshot at 2, or from index 1 on. -/
theorem catch_up_equal_stray : ∃ n₁ n₂ n₃ ws ws' ws'',
    RaftNode.handleInstallSnapshot ⟨0, 1500⟩ (snapshotRequest leaderLog 2
      ((({} : KVStore).put "x" "1").put "y" "2") 2 "a") strayFollower = ⟨.ok ⟨2, true⟩, n₁, ws⟩ ∧
    RaftNode.handleAppendEntries ⟨0, 1500⟩ (suffixRequest leaderLog 2 3 2 "a") n₁ =
      ⟨.ok ⟨2, true⟩, n₂, ws'⟩ ∧
    RaftNode.handleAppendEntries ⟨0, 1500⟩ (suffixRequest leaderLog 1 3 2 "a") strayFollower =
      ⟨.ok ⟨2, true⟩, n₃, ws''⟩ ∧ CaughtUp 2 n₂ n₃ :=
  catch_up_equal leaderLog_whole (b := 2) (c := 3) (k := 1) (by decide) (by decide) rfl
    strayFollower_of (by decide) (by decide) (by decide) (by decide) (by decide) (by decide) "a" "a"
    "a" ⟨0, 1500⟩ ⟨0, 1500⟩ ⟨0, 1500⟩

end PyRaftKv
