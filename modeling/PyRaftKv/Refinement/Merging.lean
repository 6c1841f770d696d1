/-
# Splicing a request's entries into any log

The loop of `handle_append_entries` skips the entries the log has, cuts the log at the first one it
has another entry for, and appends the rest.  `Window` follows it where the request shows a
leader's whole log; here the log and the request are arbitrary.  If the request's entries follow one
another from a place the log reaches, the loop does not raise, and `Spliced` says what it leaves.
-/
import PyRaftKv.Refinement.Following

namespace PyRaftKv

/-! ## 1. The methods of the log, by index -/

section Methods

variable {log log' : RaftLog}

theorem RaftLog.get_isSome {i : Int} (hb : log.baseIndex < i) (hi : i ≤ log.lastIndex) :
    (log.get i).isSome := by
  have hlt : log.position i < log.entries.length := by
    rw [log.lastIndex_eq] at hi
    unfold RaftLog.position
    omega
  have := RaftLog.get_eq_some.mpr ⟨hb, List.getElem?_eq_getElem hlt⟩
  rw [this]
  rfl

theorem RaftLog.get_le_lastIndex {i : Int} {e : LogEntry} (h : log.get i = some e) :
    i ≤ log.lastIndex := by
  unfold RaftLog.get at h
  split at h
  · cases h
  · omega

theorem RaftLog.le_lastIndex_of_get {i : Int}
    (h : log.baseIndex < i → ∃ e, log.get i = some e) : i ≤ log.lastIndex := by
  rcases Int.lt_or_le log.baseIndex i with hlt | hle
  · obtain ⟨e, he⟩ := h hlt
    exact RaftLog.get_le_lastIndex he
  · exact hle.trans log.base_le_lastIndex

/-- Where two logs have a boundary in common and the same entries up to some length, they read the
same there. -/
theorem RaftLog.get_congr (hb : log'.baseIndex = log.baseIndex) {i : Int} {k : Nat}
    (hi : i ≤ log.baseIndex + k) (hk : k ≤ log.entries.length) (hk' : k ≤ log'.entries.length)
    (hsame : ∀ j < k, log'.entries[j]? = log.entries[j]?) : log'.get i = log.get i := by
  have hlast := log.lastIndex_eq
  have hlast' := log'.lastIndex_eq
  unfold RaftLog.get RaftLog.position
  by_cases hlow : i ≤ log.baseIndex
  · rw [if_pos (by omega), if_pos (by omega)]
  · rw [if_neg (by omega), if_neg (by omega), hb]
    exact hsame _ (by omega)

/-- An entry on top of a log, and nothing else. -/
theorem RaftLog.appendEntry_get {e : LogEntry} (h : log.appendEntry e = .ok log') :
    log'.baseIndex = log.baseIndex ∧ log'.baseTerm = log.baseTerm ∧ e.index = log.lastIndex + 1 ∧
      log'.lastIndex = e.index ∧ log'.get e.index = some e ∧
      ∀ i ≤ log.lastIndex, log'.get i = log.get i := by
  obtain ⟨hidx, hb, hbt, hes⟩ : e.index = log.lastIndex + 1 ∧ log'.baseIndex = log.baseIndex ∧
      log'.baseTerm = log.baseTerm ∧ log'.entries = log.entries ++ [e] := by
    unfold RaftLog.appendEntry at h
    split at h
    · cases h
    · rename_i hidx
      cases h
      exact ⟨not_not.mp hidx, rfl, rfl, rfl⟩
  have hlast := log.lastIndex_eq
  have hlast' := log'.lastIndex_eq
  have hlen : log'.entries.length = log.entries.length + 1 := by
    rw [hes, List.length_append, List.length_singleton]
  refine ⟨hb, hbt, hidx, by omega, ?_, fun i hi => ?_⟩
  · rw [RaftLog.get_eq_some]
    refine ⟨by omega, ?_⟩
    unfold RaftLog.position
    rw [show (e.index - log'.baseIndex - 1).toNat = log.entries.length by omega, hes]
    exact List.getElem?_concat_length
  · refine RaftLog.get_congr hb (k := log.entries.length) (by omega) le_rfl (by omega) ?_
    intro j hj
    rw [hes, List.getElem?_append_left hj]

/-- A log cut at an index keeps what is below. -/
theorem RaftLog.truncateFrom_get {k : Int} (h : log.truncateFrom k = .ok log')
    (hk : k ≤ log.lastIndex + 1) :
    log'.baseIndex = log.baseIndex ∧ log'.baseTerm = log.baseTerm ∧ log'.lastIndex = k - 1 ∧
      ∀ i < k, log'.get i = log.get i := by
  obtain ⟨hlow, hb, hbt, hes⟩ : log.baseIndex < k ∧ log'.baseIndex = log.baseIndex ∧
      log'.baseTerm = log.baseTerm ∧ log'.entries = log.entries.take (log.position k) := by
    unfold RaftLog.truncateFrom at h
    split at h
    · cases h
    · rename_i hlow
      cases h
      exact ⟨not_le.mp hlow, rfl, rfl, rfl⟩
  have hlast := log.lastIndex_eq
  have hlast' := log'.lastIndex_eq
  have hpos : log.position k = (k - log.baseIndex - 1).toNat := rfl
  have hlen : log'.entries.length = log.position k := by
    rw [hes, List.length_take]
    omega
  refine ⟨hb, hbt, by omega, fun i hi => ?_⟩
  refine RaftLog.get_congr hb (k := log.position k) (by omega) (by omega) (by omega) ?_
  intro j hj
  rw [hes, List.getElem?_take, if_pos hj]

theorem RaftLog.appendEntry_next {e : LogEntry} (h : e.index = log.lastIndex + 1) :
    ∃ log', log.appendEntry e = .ok log' := by
  unfold RaftLog.appendEntry
  rw [dif_neg (not_not.mpr h)]
  exact ⟨_, rfl⟩

theorem RaftLog.truncateFrom_above {k : Int} (h : log.baseIndex < k) :
    ∃ log', log.truncateFrom k = .ok log' := by
  unfold RaftLog.truncateFrom
  rw [if_neg (not_le.mpr h)]
  exact ⟨_, rfl⟩

theorem RaftLog.get_above {i : Int} (h : log.lastIndex < i) : log.get i = none := by
  unfold RaftLog.get
  rw [if_pos (Or.inr h)]

theorem RaftLog.base_lt_of_get {i : Int} {e : LogEntry} (h : log.get i = some e) :
    log.baseIndex < i := (RaftLog.get_eq_some.mp h).1

/-- Where the term at an index is known, the log reaches it. -/
theorem RaftLog.reaches_of_termAt {i t : Int} (h : log.termAt i = some t) :
    log.baseIndex ≤ i ∧ i ≤ log.lastIndex := by
  unfold RaftLog.termAt at h
  split at h
  · rename_i heq
    exact ⟨heq.ge, heq ▸ log.base_le_lastIndex⟩
  · obtain ⟨e, he, -⟩ := Option.map_eq_some_iff.mp h
    exact ⟨(RaftLog.base_lt_of_get he).le, RaftLog.get_le_lastIndex he⟩

/-- The log has an entry at the index of `e`, and of another term. -/
def RaftLog.Conflicts (log : RaftLog) (e : LogEntry) : Prop :=
  ∃ x ∈ log.get e.index, x.term ≠ e.term

instance (log : RaftLog) (e : LogEntry) : Decidable (log.Conflicts e) :=
  inferInstanceAs (Decidable (∃ x ∈ log.get e.index, x.term ≠ e.term))

end Methods

/-! ## 2. The loop -/

/-- **What is left of `log` when the entries `es` have been put in above `p`**: below them the log
as it was; for each of them that entry, or the one of its index and term that was there; and above
them what was there, if none of them was in conflict with it. -/
structure Spliced (log log' : RaftLog) (p : Int) (es : List LogEntry) : Prop where
  baseIndex : log'.baseIndex = log.baseIndex
  baseTerm : log'.baseTerm = log.baseTerm
  below : ∀ i ≤ p, log'.get i = log.get i
  window : ∀ e ∈ es, ∃ e', log'.get e.index = some e' ∧ e'.term = e.term ∧
    (e' = e ∨ log.get e.index = some e')
  cut : (∃ e ∈ es, log.Conflicts e) → log'.lastIndex = p + es.length
  kept : (∀ e ∈ es, ¬ log.Conflicts e) → log'.lastIndex = max log.lastIndex (p + es.length) ∧
    ∀ i, p + es.length < i → log'.get i = log.get i

/-- The loop moves no boundary, also where it raises. -/
theorem syncEntries_base : ∀ (es : List LogEntry) (log : RaftLog),
    (syncEntries es log).2.baseIndex = log.baseIndex ∧
      (syncEntries es log).2.baseTerm = log.baseTerm
  | [], log => ⟨rfl, rfl⟩
  | e :: es, log => by
    unfold syncEntries
    split
    · split
      · exact ⟨rfl, rfl⟩
      · rename_i log₁ happ
        obtain ⟨hb, hbt, -⟩ := RaftLog.appendEntry_get happ
        rw [← hb, ← hbt]
        exact syncEntries_base es log₁
    · rename_i existing hget
      split
      · exact syncEntries_base es log
      · split
        · exact ⟨rfl, rfl⟩
        · rename_i log₁ hcut
          have hle := RaftLog.get_le_lastIndex hget
          obtain ⟨hb, hbt, -⟩ := RaftLog.truncateFrom_get hcut (by omega)
          split
          · exact ⟨hb, hbt⟩
          · rename_i log₂ happ
            obtain ⟨hb', hbt', -⟩ := RaftLog.appendEntry_get happ
            rw [← hb, ← hbt, ← hb', ← hbt']
            exact syncEntries_base es log₂

section Splice

variable {log log₁ log₂ log' : RaftLog} {p : Int} {e : LogEntry} {es : List LogEntry}

theorem Contiguous.head (hc : Contiguous p (e :: es)) : e.index = p + 1 := by
  have := hc 0 e rfl
  omega

theorem Contiguous.tail (hc : Contiguous p (e :: es)) : Contiguous (p + 1) es := by
  have := hc.drop 1
  simpa using this

theorem Contiguous.lt_index (hc : Contiguous p es) {x : LogEntry} (hx : x ∈ es) : p < x.index := by
  obtain ⟨i, hi⟩ := List.mem_iff_getElem?.mp hx
  have := hc i x hi
  omega

/-- An entry has been put on top of the log up to `p`, and the rest above it. -/
theorem Spliced.put (hc : Contiguous p (e :: es)) (hb : log₁.baseIndex = log.baseIndex)
    (hbt : log₁.baseTerm = log.baseTerm) (hlast : log₁.lastIndex = p)
    (hsame : ∀ i ≤ p, log₁.get i = log.get i) (happ : log₁.appendEntry e = .ok log₂)
    (hs : Spliced log₂ log' (p + 1) es) (hnew : log.lastIndex = p ∨ log.Conflicts e) :
    Spliced log log' p (e :: es) := by
  obtain ⟨hb₂, hbt₂, hidx, hlast₂, hget₂, hkeep₂⟩ := RaftLog.appendEntry_get happ
  have hhead := hc.head
  -- above `e` there is nothing yet that the rest could be in conflict with
  have hnone : ∀ i, p + 1 < i → log₂.get i = none := fun i hi => RaftLog.get_above (by omega)
  have hfree : ∀ x ∈ es, ¬ log₂.Conflicts x := by
    rintro x hx ⟨y, hy, -⟩
    rw [hnone _ (hc.tail.lt_index hx)] at hy
    cases hy
  obtain ⟨hlast', habove⟩ := hs.kept hfree
  have hlen : (((e :: es).length : Nat) : Int) = es.length + 1 := by
    rw [List.length_cons]
    push_cast
    rfl
  refine ⟨by rw [hs.baseIndex, hb₂, hb], by rw [hs.baseTerm, hbt₂, hbt], fun i hi => ?_,
    fun x hx => ?_, fun _ => by omega, fun hno => ?_⟩
  · rw [hs.below i (by omega), hkeep₂ i (by omega), hsame i hi]
  · rcases List.mem_cons.mp hx with rfl | hx
    · exact ⟨x, by rw [hs.below _ (by omega), hget₂], rfl, Or.inl rfl⟩
    · obtain ⟨x', hx', hterm, rfl | hold⟩ := hs.window x hx
      · exact ⟨x', hx', rfl, Or.inl rfl⟩
      · rw [hnone _ (hc.tail.lt_index hx)] at hold
        cases hold
  · rcases hnew with hend | hconf
    · refine ⟨by omega, fun i hi => ?_⟩
      rw [habove i (by omega), hnone i (by omega), RaftLog.get_above (by omega)]
    · exact absurd hconf (hno e List.mem_cons_self)

/-- **The loop does not raise** where the request's entries follow one another from a place that
the log reaches. -/
theorem syncEntries_spliced : ∀ (es : List LogEntry) {p : Int} {log : RaftLog},
    Contiguous p es → log.baseIndex ≤ p → p ≤ log.lastIndex →
    ∃ log', syncEntries es log = (.ok (), log') ∧ Spliced log log' p es := by
  intro es
  induction es with
  | nil =>
    intro p log _ _ hp
    refine ⟨log, rfl, rfl, rfl, fun _ _ => rfl, by simp, by simp, fun _ => ⟨?_, fun _ _ => rfl⟩⟩
    rw [List.length_nil, Int.natCast_zero, Int.add_zero, max_eq_left hp]
  | cons e es ih =>
    intro p log hc hb hp
    have hhead := hc.head
    unfold syncEntries
    rcases hget : log.get e.index with _ | x
    · -- the log ends at `p`
      have hend : log.lastIndex = p := by
        by_contra hne
        have hsome : (log.get e.index).isSome := RaftLog.get_isSome (by omega) (by omega)
        rw [hget] at hsome
        cases hsome
      obtain ⟨log₂, happ⟩ : ∃ log₂, log.appendEntry e = .ok log₂ :=
        RaftLog.appendEntry_next (by omega)
      obtain ⟨hb₂, -, -, hlast₂, -⟩ := RaftLog.appendEntry_get happ
      obtain ⟨log', hrun, hs⟩ := @ih _ log₂ hc.tail (by omega) (by omega)
      refine ⟨log', by simp only [happ]; exact hrun, ?_⟩
      exact Spliced.put hc rfl rfl hend (fun _ _ => rfl) happ hs (Or.inl hend)
    · have hle := RaftLog.get_le_lastIndex hget
      by_cases hterm : x.term = e.term
      · -- the log has the entry
        obtain ⟨log', hrun, hs⟩ := @ih _ log hc.tail (by omega) (by omega)
        have hfree : ¬ log.Conflicts e := by
          rintro ⟨y, hy, hne⟩
          rw [hget] at hy
          cases hy
          exact hne hterm
        have hlen : (((e :: es).length : Nat) : Int) = es.length + 1 := by
          rw [List.length_cons]
          push_cast
          rfl
        refine ⟨log', by simp only [hterm, if_true]; exact hrun, hs.baseIndex, hs.baseTerm,
          fun i hi => hs.below i (by omega), fun y hy => ?_, ?_, fun hno => ?_⟩
        · rcases List.mem_cons.mp hy with rfl | hy
          · exact ⟨x, by rw [hs.below _ (by omega), hget], hterm, Or.inr hget⟩
          · exact hs.window y hy
        · rintro ⟨y, hy, hconf⟩
          rcases List.mem_cons.mp hy with rfl | hy
          · exact absurd hconf hfree
          · have := hs.cut ⟨y, hy, hconf⟩
            omega
        · obtain ⟨hlast, habove⟩ := hs.kept fun y hy => hno y (List.mem_cons_of_mem _ hy)
          exact ⟨by omega, fun i hi => habove i (by omega)⟩
      · -- a conflict: the log is cut below the entry
        obtain ⟨log₁, hcut⟩ : ∃ log₁, log.truncateFrom e.index = .ok log₁ :=
          RaftLog.truncateFrom_above (by omega)
        obtain ⟨hb₁, hbt₁, hlast₁, hsame₁⟩ := RaftLog.truncateFrom_get hcut (by omega)
        obtain ⟨log₂, happ⟩ : ∃ log₂, log₁.appendEntry e = .ok log₂ :=
          RaftLog.appendEntry_next (by omega)
        obtain ⟨hb₂, -, -, hlast₂, -⟩ := RaftLog.appendEntry_get happ
        obtain ⟨log', hrun, hs⟩ := @ih _ log₂ hc.tail (by omega) (by omega)
        refine ⟨log', by simp only [hterm, if_false, hcut, happ]; exact hrun, ?_⟩
        exact Spliced.put hc hb₁ hbt₁ (by omega) (fun i hi => hsame₁ i (by omega)) happ hs
          (Or.inr ⟨x, hget, hterm⟩)

end Splice

/-! ## 3. Applying what is committed -/

section Apply

variable {log : RaftLog} {state : RaftState} {store : KVStore}

theorem applyCommand_ok_iff {c : RaftCommand} :
    (∃ store', applyCommand store c = .ok store') ↔ RaftNode.validateCommand c = .ok () := by
  refine ⟨?_, fun h => applyCommand_ok h store⟩
  rintro ⟨store', h⟩
  unfold applyCommand at h
  unfold RaftNode.validateCommand
  rcases c with ⟨_ | _ | name, key, _ | value⟩ <;> simp at h ⊢

/-- The log holds every index up to `last` that is not applied, with a command that can be. -/
def Appliable (state : RaftState) (log : RaftLog) (last : Int) : Prop :=
  ∀ i, state.lastApplied < i → i ≤ last →
    ∃ e ∈ log.get i, RaftNode.validateCommand e.command = .ok ()

theorem applyEntries_ok_iff : ∀ (k : Nat) (s : RaftState) (store : KVStore),
    (applyEntries log k s store).1 = .ok () ↔ Appliable s log (s.lastApplied + k)
  | 0, s, store => by
    refine ⟨fun _ i hi hle => ?_, fun _ => rfl⟩
    rw [Int.natCast_zero, Int.add_zero] at hle
    exact absurd hle (not_le.mpr hi)
  | k + 1, s, store => by
    have hnext : s.lastApplied + ((k + 1 : Nat) : Int) = s.lastApplied + 1 + k := by omega
    unfold applyEntries
    simp only
    split
    · rename_i hnone
      refine ⟨(fun h => by cases h), fun h => ?_⟩
      obtain ⟨e, he, -⟩ := h (s.lastApplied + 1) (by omega) (by omega)
      rw [hnone] at he
      cases he
    · rename_i entry hget
      split
      · rename_i e happ
        refine ⟨(fun h => by cases h), fun h => ?_⟩
        obtain ⟨e', he, hv⟩ := h (s.lastApplied + 1) (by omega) (by omega)
        rw [hget] at he
        cases he
        obtain ⟨store', hok⟩ := applyCommand_ok_iff.mpr hv
        rw [happ] at hok
        cases hok
      · rename_i store' happ
        rw [applyEntries_ok_iff k]
        constructor
        · intro h i hi hle
          rcases (show i = s.lastApplied + 1 ∨ s.lastApplied + 1 < i by omega) with rfl | hlt
          · exact ⟨entry, hget, applyCommand_ok_iff.mp ⟨store', happ⟩⟩
          · exact h i hlt (by rw [← hnext]; exact hle)
        · intro h i hi hle
          exact h i (by change s.lastApplied + 1 < i at hi; omega)
            (by rw [hnext]; exact hle)

/-- Applying entries ends at the commit index, if it was not there before. -/
theorem applyEntries_applied : ∀ (k : Nat) (s : RaftState) (store : KVStore),
    (applyEntries log k s store).1 = .ok () →
    (applyEntries log k s store).2.1 = { s with lastApplied := s.lastApplied + k }
  | 0, s, store, _ => by
    simp [applyEntries]
  | k + 1, s, store, h => by
    unfold applyEntries at h ⊢
    simp only at h ⊢
    split at h
    · cases h
    · split at h
      · cases h
      · rename_i store' happ
        rw [applyEntries_applied k _ _ h]
        simp only [Int.natCast_add, Int.natCast_one]
        congr 1
        omega

/-- Whether it raises or not, applying entries leaves the commit index and does not pass it. -/
theorem applyEntries_le : ∀ (k : Nat) (s : RaftState) (store : KVStore),
    (applyEntries log k s store).2.1.commitIndex = s.commitIndex ∧
      (applyEntries log k s store).2.1.lastApplied ≤ s.lastApplied + k ∧
      ((applyEntries log k s store).1 ≠ .ok () →
        (applyEntries log k s store).2.1.lastApplied < s.lastApplied + k)
  | 0, s, store => by simp [applyEntries]
  | k + 1, s, store => by
    have hnext : s.lastApplied + ((k + 1 : Nat) : Int) = s.lastApplied + 1 + k := by omega
    have hstop : s.lastApplied < s.lastApplied + ((k + 1 : Nat) : Int) := by omega
    unfold applyEntries
    simp only
    split
    · exact ⟨rfl, hstop.le, fun _ => hstop⟩
    · split
      · exact ⟨rfl, hstop.le, fun _ => hstop⟩
      · rename_i store' happ
        rw [hnext]
        exact applyEntries_le k _ store'

variable (log state store) in
/-- **All that is committed is applied** exactly if it can be. -/
theorem applyCommittedEntries_settles (hle : state.lastApplied ≤ state.commitIndex) :
    (applyCommittedEntries state log store).2.1.commitIndex = state.commitIndex ∧
      (applyCommittedEntries state log store).2.1.lastApplied ≤ state.commitIndex ∧
      ((applyCommittedEntries state log store).2.1.lastApplied = state.commitIndex ↔
        Appliable state log state.commitIndex) := by
  have hend : state.lastApplied + ((state.commitIndex - state.lastApplied).toNat : Int) =
      state.commitIndex := by omega
  unfold applyCommittedEntries
  obtain ⟨hc, hl, hlt⟩ := @applyEntries_le log (state.commitIndex - state.lastApplied).toNat
    state store
  have hok := @applyEntries_ok_iff log (state.commitIndex - state.lastApplied).toNat state store
  rw [hend] at hl hlt hok
  refine ⟨hc, hl, ?_⟩
  rw [← hok]
  constructor
  · intro h
    by_contra hne
    exact absurd h (hlt hne).ne
  · intro h
    rw [applyEntries_applied _ _ _ h]
    exact hend

theorem applyCommittedEntries_applied
    (h : (applyCommittedEntries state log store).1 = .ok ()) :
    (applyCommittedEntries state log store).2.1 =
      { state with lastApplied := max state.lastApplied state.commitIndex } := by
  unfold applyCommittedEntries at h ⊢
  rw [applyEntries_applied _ _ _ h]
  congr 1
  omega

/-- **What `update_follower_commit` commits and applies**, if it does not raise. -/
theorem updateFollowerCommit_ok {leaderCommit : Int}
    (h : (updateFollowerCommit state log store leaderCommit).1 = .ok ()) :
    (updateFollowerCommit state log store leaderCommit).2.1 =
      if leaderCommit ≤ state.commitIndex then state
      else { state with
        commitIndex := min leaderCommit log.lastIndex
        lastApplied := max state.lastApplied (min leaderCommit log.lastIndex) } := by
  unfold updateFollowerCommit at h ⊢
  split
  · rfl
  · rename_i hle
    rw [if_neg hle] at h
    exact applyCommittedEntries_applied h

/-- **When `update_follower_commit` does not raise.** -/
theorem updateFollowerCommit_ok_iff (state : RaftState) (log : RaftLog) (store : KVStore)
    (leaderCommit : Int) :
    (updateFollowerCommit state log store leaderCommit).1 = .ok () ↔
      leaderCommit ≤ state.commitIndex ∨
        Appliable state log (min leaderCommit log.lastIndex) := by
  unfold updateFollowerCommit
  split
  · rename_i hle
    exact ⟨fun _ => Or.inl hle, fun _ => rfl⟩
  · rename_i hlt
    unfold applyCommittedEntries
    rw [applyEntries_ok_iff, or_iff_right hlt]
    constructor
    · intro h i hi hle
      exact h i hi (by
        change i ≤ state.lastApplied + ((min leaderCommit log.lastIndex - state.lastApplied).toNat
          : Int)
        omega)
    · intro h i hi hle
      change state.lastApplied < i at hi
      change i ≤ state.lastApplied + ((min leaderCommit log.lastIndex - state.lastApplied).toNat
        : Int) at hle
      exact h i hi (by omega)

end Apply

/-! ## 4. The handler -/

section Handler

variable {state : RaftState} {log : RaftLog} {r : AppendEntriesRequest} {store : KVStore}

/-- The handler once its checks have passed and the log is `log'`: the commit index, then the
answer. -/
def commitAndAnswer (state : RaftState) (log' : RaftLog) (r : AppendEntriesRequest)
    (store : KVStore) : Except RaftError AppendEntriesResponse × RaftState × RaftLog × KVStore :=
  match updateFollowerCommit state log' store r.leaderCommit with
  | (.error e, state, store) => (.error e, state, log', store)
  | (.ok (), state, store) => (.ok ⟨state.currentTerm, true⟩, state, log', store)

/-- Where what is committed then can be applied, the answer is a success. -/
theorem commitAndAnswer_ok {log' : RaftLog}
    (h : (updateFollowerCommit state log' store r.leaderCommit).1 = .ok ()) :
    ∃ state' store', commitAndAnswer state log' r store =
        (.ok ⟨state.currentTerm, true⟩, state', log', store') ∧
      state' =
        if r.leaderCommit ≤ state.commitIndex then state
        else { state with
          commitIndex := min r.leaderCommit log'.lastIndex
          lastApplied := max state.lastApplied (min r.leaderCommit log'.lastIndex) } := by
  have hstate := updateFollowerCommit_ok h
  have hterm := (updateFollowerCommit_role state log' store r.leaderCommit).2
  unfold commitAndAnswer
  rcases hupdate : updateFollowerCommit state log' store r.leaderCommit with
    ⟨_ | ⟨⟨⟩⟩, state', store'⟩
  · rw [hupdate] at h
    cases h
  · rw [hupdate] at hstate hterm
    simp only at hstate hterm ⊢
    exact ⟨state', store', by rw [hterm], hstate⟩

/-- An answer means that it could be applied. -/
theorem commitAndAnswer_answers {log₁ log' : RaftLog} {state' : RaftState} {store' : KVStore}
    {a : AppendEntriesResponse}
    (h : commitAndAnswer state log₁ r store = (.ok a, state', log', store')) :
    (updateFollowerCommit state log₁ store r.leaderCommit).1 = .ok () := by
  unfold commitAndAnswer at h
  split at h
  · cases h
  · rename_i hupdate
    rw [hupdate]

theorem handleAppendEntries_stale (h : r.term < state.currentTerm) :
    PyRaftKv.handleAppendEntries state log r store =
      (.ok ⟨state.currentTerm, false⟩, state, log, store) := by
  unfold PyRaftKv.handleAppendEntries
  rw [if_pos h]

/-- A request that does not match is refused, and only the term is taken over. -/
theorem handleAppendEntries_mismatch (hge : state.currentTerm ≤ r.term)
    (h : log.termAt r.prevLogIndex ≠ some r.prevLogTerm) :
    PyRaftKv.handleAppendEntries state log r store =
      (.ok ⟨r.term, false⟩, state.follow r.term (some r.leaderId), log, store) := by
  unfold PyRaftKv.handleAppendEntries
  rw [if_neg (not_lt.mpr hge), RaftState.becomeFollower_ok _ hge]
  simp only [ne_eq, h, not_false_eq_true, if_true, ite_self]
  rfl

/-- A request that matches goes through the loop. -/
theorem handleAppendEntries_match (store : KVStore) (hge : state.currentTerm ≤ r.term)
    (h : log.termAt r.prevLogIndex = some r.prevLogTerm) :
    PyRaftKv.handleAppendEntries state log r store =
      match syncEntries r.entries log with
      | (.error e, log') => (.error e, state.follow r.term (some r.leaderId), log', store)
      | (.ok (), log') => commitAndAnswer (state.follow r.term (some r.leaderId)) log' r store := by
  have hle := (RaftLog.reaches_of_termAt h).2
  unfold PyRaftKv.handleAppendEntries
  rw [if_neg (not_lt.mpr hge), RaftState.becomeFollower_ok _ hge]
  simp only
  rw [if_neg (not_lt.mpr hle), if_neg (not_not.mpr h)]
  rfl

/-- **A request that matches and whose entries follow one another splices them in**, and then the
commit index is updated. -/
theorem handleAppendEntries_splices (store : KVStore) (hge : state.currentTerm ≤ r.term)
    (h : log.termAt r.prevLogIndex = some r.prevLogTerm)
    (hwf : Contiguous r.prevLogIndex r.entries) :
    ∃ log', Spliced log log' r.prevLogIndex r.entries ∧
      PyRaftKv.handleAppendEntries state log r store =
        commitAndAnswer (state.follow r.term (some r.leaderId)) log' r store := by
  obtain ⟨hb, hle⟩ := RaftLog.reaches_of_termAt h
  obtain ⟨log', hsync, hs⟩ := syncEntries_spliced r.entries hwf hb hle
  refine ⟨log', hs, ?_⟩
  rw [handleAppendEntries_match store hge h, hsync]

/-- A success answer comes from a request that matched. -/
theorem handleAppendEntries_success {a : AppendEntriesResponse} {state' : RaftState}
    {log' : RaftLog} {store' : KVStore}
    (hrun : PyRaftKv.handleAppendEntries state log r store = (.ok a, state', log', store'))
    (hsuccess : a.success = true) :
    state.currentTerm ≤ r.term ∧ log.termAt r.prevLogIndex = some r.prevLogTerm := by
  by_cases hge : state.currentTerm ≤ r.term
  · refine ⟨hge, ?_⟩
    by_contra hne
    rw [handleAppendEntries_mismatch hge hne] at hrun
    cases hrun
    cases hsuccess
  · rw [handleAppendEntries_stale (not_le.mp hge)] at hrun
    cases hrun
    cases hsuccess

/-- **What a success answer leaves**: the entries spliced in, and the commit index updated. -/
theorem handleAppendEntries_commits {a : AppendEntriesResponse} {state' : RaftState}
    {log' : RaftLog} {store' : KVStore} (hwf : Contiguous r.prevLogIndex r.entries)
    (hrun : PyRaftKv.handleAppendEntries state log r store = (.ok a, state', log', store'))
    (hsuccess : a.success = true) :
    Spliced log log' r.prevLogIndex r.entries ∧
      state' =
        if r.leaderCommit ≤ state.commitIndex then state.follow r.term (some r.leaderId)
        else { state.follow r.term (some r.leaderId) with
          commitIndex := min r.leaderCommit log'.lastIndex
          lastApplied := max state.lastApplied (min r.leaderCommit log'.lastIndex) } := by
  obtain ⟨hge, hprev⟩ := handleAppendEntries_success hrun hsuccess
  obtain ⟨log₁, hs, heq⟩ := handleAppendEntries_splices store hge hprev hwf
  obtain ⟨_, _, hleft, hstate⟩ := commitAndAnswer_ok (commitAndAnswer_answers (heq.symm.trans hrun))
  rw [heq, hleft] at hrun
  cases hrun
  exact ⟨hs, hstate⟩

end Handler

/-- Two entries that delete one key, to look at. -/
def twoDeletes : RaftLog where
  entries := [⟨1, 1, ⟨.delete, "k", none⟩⟩, ⟨2, 1, ⟨.delete, "k", none⟩⟩]

end PyRaftKv
