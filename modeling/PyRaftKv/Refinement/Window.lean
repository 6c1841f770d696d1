/-
# A compacted log as a window on the whole log

A `RaftLog` has forgotten the entries up to its base.  `Shows log l b` says what it still is: the
window above position `b` on a WHOLE log `l`, together with the term at `b`.  Under it, each method
of `RaftLog` is an operation on the whole log: reading, cutting, extending, and moving the base.

The whole log is contiguous from zero, so an index is a position plus one.
-/
import PyRaftKv.Consensus.Group
import PyRaftKv.Raft.Node

open Consensus

namespace PyRaftKv

instance : Stamped LogEntry Int := ⟨LogEntry.term⟩

/-! ## 1. Whole logs -/

/-- The whole log `l` is contiguous, its terms are positive, and its commands passed the checks of
`submit_commands`. -/
structure Whole (l : List LogEntry) : Prop where
  contiguous : Contiguous 0 l
  pos : ∀ e ∈ l, 0 < e.term
  valid : ∀ e ∈ l, RaftNode.validateCommand e.command = .ok ()

/-- `log` is the window above position `b` on `l`. -/
structure Shows (log : RaftLog) (l : List LogEntry) (b : Nat) : Prop where
  base : log.baseIndex = b
  baseTerm : log.baseTerm = lastStamp (l.take b)
  entries : log.entries = l.drop b
  le : b ≤ l.length

theorem Whole.index {l : List LogEntry} (hl : Whole l) {i : Nat} {e : LogEntry}
    (he : l[i]? = some e) : e.index = i + 1 := by
  have := hl.contiguous i e he
  omega

theorem Whole.of_isPrefix {l m : List LogEntry} (hm : Whole m) (hp : l <+: m) : Whole l := by
  refine ⟨fun i e he => hm.contiguous i e ?_, fun e he => hm.pos e (hp.subset he),
    fun e he => hm.valid e (hp.subset he)⟩
  exact getElem?_mono hp he

theorem Whole.nil : Whole [] := ⟨Contiguous.nil 0, by simp, by simp⟩

theorem Whole.snoc {l : List LogEntry} (hl : Whole l) {e : LogEntry} (hi : e.index = l.length + 1)
    (ht : 0 < e.term) (hv : RaftNode.validateCommand e.command = .ok ()) : Whole (l ++ [e]) := by
  refine ⟨hl.contiguous.snoc (by omega), fun x hx => ?_, fun x hx => ?_⟩
  all_goals rcases List.mem_append.mp hx with hx | hx
  · exact hl.pos x hx
  · rw [List.mem_singleton.mp hx]
    exact ht
  · exact hl.valid x hx
  · rw [List.mem_singleton.mp hx]
    exact hv

/-- A log whose every entry stands in a whole log, below it the same entries, is whole. -/
theorem Whole.of_traced {h : History NodeId LogEntry Int} (hh : ∀ t, Whole (h.leaderLog t))
    {l : List LogEntry} (hl : h.Traced l) : Whole l := by
  have hpre : ∀ (i : Nat) (e : LogEntry), l[i]? = some e → Whole (l.take i ++ [e]) :=
    fun i e he => (hh _).of_isPrefix (hl _ _ (take_snoc_isPrefix he)).2
  have hmem : ∀ e ∈ l, ∃ i : Nat, Whole (l.take i ++ [e]) := fun e he =>
    (List.mem_iff_getElem?.mp he).imp fun i hi => hpre i e hi
  refine ⟨fun i e he => ?_, fun e he => ?_, fun e he => ?_⟩
  · refine (hpre i e he).contiguous i e ?_
    have hlen : (l.take i).length = i :=
      List.length_take_of_le (List.getElem?_eq_some_iff.mp he).1.le
    rw [List.getElem?_append_right hlen.le, hlen, Nat.sub_self]
    rfl
  · obtain ⟨i, hi⟩ := hmem e he
    exact hi.pos e (by simp)
  · obtain ⟨i, hi⟩ := hmem e he
    exact hi.valid e (by simp)

theorem lastStamp_take_succ {l : List LogEntry} {i : Nat} {e : LogEntry} (he : l[i]? = some e) :
    lastStamp (l.take (i + 1)) = e.term := by
  rw [List.take_add_one, he]
  simp [lastStamp, stamp]

theorem Whole.lastStamp_nonneg {l : List LogEntry} (hl : Whole l) : 0 ≤ lastStamp l := by
  unfold lastStamp
  rcases hg : l.getLast? with _ | e
  · exact le_rfl
  · exact (hl.pos e (List.mem_of_getLast? hg)).le

/-! ## 2. Reading through a window -/

namespace Shows

variable {log log' : RaftLog} {l : List LogEntry} {b : Nat}

/-- A log without a base shows its own entries. -/
theorem full (hb : log.baseIndex = 0) : Shows log log.entries 0 :=
  ⟨hb, by rw [log.base_zero hb]; rfl, rfl, Nat.zero_le _⟩

/-- Two windows at one position on one log are equal. -/
theorem unique (hs : Shows log l b) (hs' : Shows log' l b) : log = log' :=
  RaftLog.ext (hs.base.trans hs'.base.symm) (hs.baseTerm.trans hs'.baseTerm.symm)
    (hs.entries.trans hs'.entries.symm)

theorem lastIndex (hs : Shows log l b) : log.lastIndex = l.length := by
  have := hs.le
  rw [log.lastIndex_eq, hs.base, hs.entries, List.length_drop]
  omega

theorem lastTerm (hs : Shows log l b) : log.lastTerm = lastStamp l := by
  unfold RaftLog.lastTerm
  rw [hs.entries]
  rcases hs.le.lt_or_eq with hlt | rfl
  · have hne : l.drop b ≠ [] := by simp; omega
    obtain ⟨e, he⟩ := Option.ne_none_iff_exists'.mp (mt List.getLast?_eq_none_iff.mp hne)
    have hl : l.getLast? = some e := by
      rw [← List.take_append_drop b l, List.getLast?_append_of_ne_nil _ hne, he]
    simp [he, lastStamp, hl, stamp]
  · simp [hs.baseTerm]

theorem get_succ (hs : Shows log l b) {i : Nat} {e : LogEntry} :
    log.get (i + 1 : Nat) = some e ↔ b ≤ i ∧ l[i]? = some e := by
  rw [RaftLog.get_eq_some, hs.base, hs.entries, List.getElem?_drop]
  unfold RaftLog.position
  rw [hs.base]
  constructor
  · rintro ⟨hlt, he⟩
    refine ⟨by omega, ?_⟩
    rwa [show b + (((i + 1 : Nat) : Int) - b - 1).toNat = i by omega] at he
  · rintro ⟨hle, he⟩
    refine ⟨by omega, ?_⟩
    rwa [show b + (((i + 1 : Nat) : Int) - b - 1).toNat = i by omega]

/-- What stands at an index of the window stands at its position of the whole log. -/
theorem get_eq_some (hs : Shows log l b) {k : Int} {e : LogEntry} :
    log.get k = some e ↔ ∃ i : Nat, k = i + 1 ∧ b ≤ i ∧ l[i]? = some e := by
  constructor
  · intro h
    have hlt := (RaftLog.get_eq_some.mp h).1
    rw [hs.base] at hlt
    obtain ⟨i, rfl⟩ : ∃ i : Nat, k = (i + 1 : Nat) := ⟨(k - 1).toNat, by omega⟩
    exact ⟨i, by push_cast; rfl, hs.get_succ.mp h⟩
  · rintro ⟨i, rfl, hi⟩
    exact hs.get_succ.mpr hi

/-- From the base on, the window reads as the whole log does. -/
theorem get_getElem? (hs : Shows log l b) {i : Nat} (hi : b ≤ i) :
    log.get ((i : Int) + 1) = l[i]? := by
  rcases he : l[i]? with _ | e
  · by_contra hne
    obtain ⟨e, he'⟩ := Option.ne_none_iff_exists'.mp hne
    rw [(hs.get_succ.mp he').2] at he
    cases he
  · exact hs.get_succ.mpr ⟨hi, he⟩

/-- A window knows the term of every position from its base on. -/
theorem termAt_eq_some (hs : Shows log l b) {k t : Int} :
    log.termAt k = some t ↔
      ∃ i : Nat, k = i ∧ b ≤ i ∧ i ≤ l.length ∧ t = lastStamp (l.take i) := by
  unfold RaftLog.termAt
  rw [hs.base]
  split
  · rename_i hk
    subst hk
    rw [hs.baseTerm]
    constructor
    · intro h
      exact ⟨b, rfl, le_rfl, hs.le, (Option.some.inj h).symm⟩
    · rintro ⟨i, hi, -, -, rfl⟩
      rw [show i = b by omega]
  · rename_i hk
    rw [Option.map_eq_some_iff]
    constructor
    · rintro ⟨e, he, rfl⟩
      obtain ⟨i, rfl, hbi, hi⟩ := hs.get_eq_some.mp he
      refine ⟨i + 1, by push_cast; rfl, by omega, ?_, (lastStamp_take_succ hi).symm⟩
      exact (List.getElem?_eq_some_iff.mp hi).1
    · rintro ⟨i, rfl, hbi, hil, rfl⟩
      obtain ⟨j, rfl⟩ : ∃ j, i = j + 1 := ⟨i - 1, by omega⟩
      have he : l[j]? = some l[j] := List.getElem?_eq_getElem (by omega)
      exact ⟨l[j], hs.get_succ.mpr ⟨by omega, he⟩, (lastStamp_take_succ he).symm⟩

theorem termAt (hs : Shows log l b) {i : Nat} (hb : b ≤ i) (hi : i ≤ l.length) :
    log.termAt i = some (lastStamp (l.take i)) :=
  hs.termAt_eq_some.mpr ⟨i, rfl, hb, hi, rfl⟩

theorem entriesFrom (hs : Shows log l b) {i : Nat} (hb : b ≤ i) :
    log.entriesFrom (i + 1) = .ok (l.drop i) := by
  unfold RaftLog.entriesFrom RaftLog.position RaftLog.firstIndex
  rw [if_neg (by omega), hs.base, hs.entries, List.drop_drop]
  congr 2
  omega

/-! ## 3. Changing the log through a window -/

theorem appendEntry (hs : Shows log l b) {e : LogEntry} (he : e.index = l.length + 1) :
    ∃ log', log.appendEntry e = .ok log' ∧ Shows log' (l ++ [e]) b := by
  unfold RaftLog.appendEntry
  rw [dif_neg (by rw [hs.lastIndex]; omega)]
  have := hs.le
  refine ⟨_, rfl, hs.base, ?_, ?_, by simp; omega⟩
  · rw [List.take_append_of_le_length hs.le]
    exact hs.baseTerm
  · rw [List.drop_append_of_le_length hs.le]
    exact congrArg (· ++ [e]) hs.entries

theorem append (hs : Shows log l b) {term : Int} (ht : 0 ≤ term) (command : RaftCommand) :
    ∃ log', log.append term command = .ok (⟨l.length + 1, term, command⟩, log') ∧
      Shows log' (l ++ [⟨l.length + 1, term, command⟩]) b := by
  have := hs.le
  unfold RaftLog.append
  rw [if_neg (by omega)]
  simp only [hs.lastIndex]
  refine ⟨_, rfl, hs.base, ?_, ?_, by simp; omega⟩
  · rw [List.take_append_of_le_length hs.le]
    exact hs.baseTerm
  · rw [List.drop_append_of_le_length hs.le]
    exact congrArg (· ++ _) hs.entries

theorem truncateFrom (hs : Shows log l b) {i : Nat} (hb : b ≤ i) :
    ∃ log', log.truncateFrom (i + 1) = .ok log' ∧ Shows log' (l.take i) b := by
  unfold RaftLog.truncateFrom
  rw [if_neg (by rw [hs.base]; omega)]
  have := hs.le
  refine ⟨_, rfl, hs.base, ?_, ?_, by rw [List.length_take]; omega⟩
  · rw [List.take_take, min_eq_left hb]
    exact hs.baseTerm
  · have hpos : log.position (i + 1) = i - b := by
      unfold RaftLog.position
      rw [hs.base]
      omega
    change log.entries.take (log.position (i + 1)) = (l.take i).drop b
    rw [hpos, hs.entries, List.drop_take]

/-- Moving the base up keeps the whole log. -/
theorem rebase (hs : Shows log l b) {i : Nat} (hb : b ≤ i) (hi : i ≤ l.length) {h1 h2} :
    Shows (log.rebase i (lastStamp (l.take i)) h1 h2) l i := by
  refine ⟨rfl, rfl, ?_, hi⟩
  change log.entries.drop _ = l.drop i
  rw [hs.base, hs.entries, List.drop_drop]
  congr 1
  omega

/-- Nothing but a boundary shows a log that ends there. -/
theorem boundary {h1 h2} : Shows (RaftLog.boundary l.length (lastStamp l) h1 h2) l l.length :=
  ⟨rfl, by rw [List.take_length]; rfl, by rw [List.drop_length]; rfl, le_rfl⟩

/-- Building a log up from a window's parts gives that window. -/
theorem foldlM_appendEntry : ∀ (es : List LogEntry) {log : RaftLog} {l : List LogEntry} {b : Nat},
    Shows log l b → Contiguous 0 (l ++ es) →
    ∃ log', es.foldlM RaftLog.appendEntry log = .ok log' ∧ Shows log' (l ++ es) b := by
  intro es
  induction es with
  | nil =>
    intro log l b hs _
    exact ⟨log, rfl, by simpa using hs⟩
  | cons e es ih =>
    intro log l b hs hc
    have he : e.index = l.length + 1 := by
      have := hc l.length e (by simp)
      omega
    obtain ⟨log', happ, hs'⟩ := hs.appendEntry he
    obtain ⟨log'', hfold, hs''⟩ := ih hs' (by rwa [List.append_cons] at hc)
    refine ⟨log'', ?_, by rwa [List.append_cons]⟩
    rw [List.foldlM_cons, happ]
    exact hfold

theorem new_of_contiguous (hs : Shows log l b) (hl : Contiguous 0 l) (hbt : 0 ≤ log.baseTerm) :
    RaftLog.new log.baseIndex log.baseTerm log.entries = .ok log := by
  unfold RaftLog.new
  have hnn := log.base_nonneg
  rw [dif_neg (by omega), if_neg (by omega), dif_neg fun h => h.2 (log.base_zero h.1)]
  have hstart : Shows ⟨log.baseIndex, log.baseTerm, [], hnn, log.base_zero, Contiguous.nil _⟩
      (l.take b) b := by
    refine ⟨hs.base, ?_, ?_, by rw [List.length_take_of_le hs.le]⟩
    · rw [List.take_take, min_self]
      exact hs.baseTerm
    · exact (List.drop_eq_nil_of_le (by rw [List.length_take]; omega)).symm
  obtain ⟨log', hfold, hs'⟩ := foldlM_appendEntry log.entries hstart
    (by rw [hs.entries, List.take_append_drop]; exact hl)
  rw [hs.entries, List.take_append_drop] at hs'
  exact hfold.trans (congrArg Except.ok (hs'.unique hs))

/-- **`RaftLog(base_index, base_term, entries)` gives back the log it was read from.** -/
theorem new (hs : Shows log l b) (hl : Whole l) :
    RaftLog.new log.baseIndex log.baseTerm log.entries = .ok log := by
  refine hs.new_of_contiguous hl.contiguous ?_
  rw [hs.baseTerm]
  exact (hl.of_isPrefix (List.take_prefix _ _)).lastStamp_nonneg

theorem copy (hs : Shows log l b) (hl : Whole l) : log.copy = .ok log := hs.new hl

/-! ## 4. Moving the base -/

theorem compactThrough (hs : Shows log l b) {k : Nat} (hb : b ≤ k) (hk : k ≤ l.length) :
    ∃ log', log.compactThrough k = .ok log' ∧ Shows log' l k := by
  unfold RaftLog.compactThrough
  rw [dif_neg (by rw [hs.base]; omega)]
  split
  · rename_i heq
    rw [hs.base] at heq
    obtain rfl : k = b := by omega
    exact ⟨log, rfl, hs⟩
  · rw [hs.termAt hb hk]
    exact ⟨_, rfl, hs.rebase hb hk⟩

/-- A boundary the log reaches with the right term only moves the base. -/
theorem install_kept (hs : Shows log l b) {k : Nat} (hb : b ≤ k) (hk : k ≤ l.length) :
    ∃ log', log.installSnapshotBoundary k (lastStamp (l.take k)) = .ok log' ∧ Shows log' l k := by
  unfold RaftLog.installSnapshotBoundary
  rw [dif_neg (by rw [hs.base]; omega)]
  split
  · rename_i heq
    rw [hs.base] at heq
    obtain rfl : k = b := by omega
    rw [if_neg (by rw [hs.baseTerm]; exact fun h => h rfl)]
    exact ⟨log, rfl, hs⟩
  · rw [if_pos (hs.termAt hb hk)]
    exact ⟨_, rfl, hs.rebase hb hk⟩

/-- A boundary above the base where the log has no entry of that term replaces it. -/
theorem install_fresh (hs : Shows log l b) {m : List LogEntry} (hb : b < m.length)
    (hne : log.termAt m.length ≠ some (lastStamp m)) :
    ∃ log', log.installSnapshotBoundary m.length (lastStamp m) = .ok log' ∧
      Shows log' m m.length := by
  unfold RaftLog.installSnapshotBoundary
  rw [dif_neg (by rw [hs.base]; omega), dif_neg (by rw [hs.base]; omega), if_neg hne]
  exact ⟨_, rfl, Shows.boundary⟩

/-! ## 5. The loop of AppendEntries -/

/-- **Synchronizing with a leader's log** `m` from a position where both agree.  If the
follower's log already reaches through `m` it stays as it is; else it becomes `m`. -/
theorem syncEntries {m : List LogEntry} (hm : Whole m) :
    ∀ (n P : Nat) {log : RaftLog} {l : List LogEntry}, n = m.length - P → Shows log l b →
    b ≤ P → P ≤ l.length → P ≤ m.length → l.take P = m.take P →
    (∀ (i : Nat) (x y : LogEntry), l[i]? = some x → m[i]? = some y → x.term = y.term → x = y) →
    ∃ log' l', PyRaftKv.syncEntries (m.drop P) log = (.ok (), log') ∧ Shows log' l' b ∧
      (m <+: l ∧ l' = l ∨ ¬ m <+: l ∧ l' = m) := by
  intro n
  induction n with
  | zero =>
    intro P log l hn hs hbP hPl hPm heq _
    have hP : P = m.length := by omega
    subst hP
    refine ⟨log, l, by rw [List.drop_length]; rfl, hs, Or.inl ⟨?_, rfl⟩⟩
    rw [List.take_length] at heq
    exact heq ▸ List.take_prefix _ _
  | succ n ih =>
    intro P log l hn hs hbP hPl hPm heq hmatch
    have hlt : P < m.length := by omega
    have hmP : m[P]? = some m[P] := List.getElem?_eq_getElem hlt
    have hidx : m[P].index = P + 1 := hm.index hmP
    rw [List.drop_eq_getElem_cons hlt]
    -- once the log has been cut at `P`, the leader's entry goes on top and the rest follows
    have hput : ∀ log₁, Shows log₁ (m.take P) b → ∃ log₂ log',
        log₁.appendEntry m[P] = .ok log₂ ∧
        PyRaftKv.syncEntries (m.drop (P + 1)) log₂ = (.ok (), log') ∧ Shows log' m b := by
      intro log₁ hs₁
      have hlen : (m.take P).length = P := List.length_take_of_le hPm
      obtain ⟨log₂, happ, hs₂⟩ := hs₁.appendEntry (e := m[P]) (by rw [hlen, hidx])
      rw [List.take_append_getElem hlt] at hs₂
      obtain ⟨log', l', hsync, hs', hl'⟩ := ih (P + 1) (by omega) hs₂ (by omega)
        (by rw [List.length_take]; omega) (by omega) (by rw [List.take_take, min_self])
        (fun i x y hx hy _ => by
          exact Option.some.inj ((getElem?_mono (List.take_prefix _ _) hx).symm.trans hy))
      refine ⟨log₂, log', happ, hsync, ?_⟩
      rcases hl' with ⟨hpre, rfl⟩ | ⟨-, rfl⟩
      · rwa [(List.take_prefix _ _).eq_of_length_le hpre.length_le] at hs'
      · exact hs'
    unfold PyRaftKv.syncEntries
    rcases hg : log.get m[P].index with _ | x
    · -- the log ends here
      have hl : l = m.take P := by
        rw [← heq, List.take_of_length_le]
        by_contra hgt
        have hlP : l[P]? = some l[P] := List.getElem?_eq_getElem (by omega)
        have := hs.get_succ.mpr ⟨hbP, hlP⟩
        rw [hidx] at hg
        push_cast at this
        rw [hg] at this
        cases this
      obtain ⟨log₂, log', happ, hsync, hs'⟩ := hput log (hl ▸ hs)
      refine ⟨log', m, by simp only [happ]; exact hsync, hs', Or.inr ⟨fun hp => ?_, rfl⟩⟩
      have := hp.length_le
      rw [hl, List.length_take] at this
      omega
    · rw [hidx] at hg
      obtain ⟨i, hi, -, hx⟩ := hs.get_eq_some.mp hg
      obtain rfl : i = P := by omega
      by_cases hterm : x.term = m[i].term
      · -- the same entry: on to the next one
        have hxm := hmatch i x _ hx hmP hterm
        simp only [hterm, if_true]
        refine ih (i + 1) (by omega) hs (by omega) (List.getElem?_eq_some_iff.mp hx).1
          (by omega) ?_ hmatch
        rw [List.take_add_one, List.take_add_one, heq, hx, hmP, hxm]
      · -- a conflict: the log is cut here
        simp only [hterm, if_false, hidx]
        obtain ⟨log₁, hcut, hs₁⟩ := hs.truncateFrom hbP
        obtain ⟨log₂, log', happ, hsync, hs'⟩ := hput log₁ (heq ▸ hs₁)
        refine ⟨log', m, by simp only [hcut, happ]; exact hsync, hs', Or.inr ⟨fun hp => ?_, rfl⟩⟩
        rw [getElem?_of_isPrefix hp hlt, hmP] at hx
        exact hterm (congrArg _ (Option.some.inj hx).symm)

end Shows

/-! ## 6. A whole log for any log -/

/-- Stand-ins for the entries below the boundary of a log. -/
def RaftLog.padding (log : RaftLog) : List LogEntry :=
  (List.range log.baseIndex.toNat).map fun i : Nat => ⟨i + 1, log.baseTerm, ⟨.delete, "", none⟩⟩

/-- The entries of a log on top of such stand-ins. -/
def RaftLog.padded (log : RaftLog) : List LogEntry := log.padding ++ log.entries

theorem RaftLog.padding_length (log : RaftLog) : log.padding.length = log.baseIndex.toNat := by
  rw [RaftLog.padding, List.length_map, List.length_range]

theorem RaftLog.padded_take (log : RaftLog) :
    log.padded.take log.baseIndex.toNat = log.padding := by
  rw [RaftLog.padded, List.take_append_of_le_length log.padding_length.ge,
    List.take_of_length_le log.padding_length.le]

theorem RaftLog.padded_shows (log : RaftLog) : Shows log log.padded log.baseIndex.toNat := by
  have hbase := log.base_nonneg
  have hlen := log.padding_length
  refine ⟨by omega, ?_, ?_, by rw [RaftLog.padded, List.length_append]; omega⟩
  · rw [RaftLog.padded_take, RaftLog.padding]
    rcases hb : log.baseIndex.toNat with _ | b
    · rw [log.base_zero (by omega)]
      rfl
    · rw [List.range_succ, List.map_append]
      simp [lastStamp, stamp]
  · rw [RaftLog.padded, List.drop_append_of_le_length hlen.ge, List.drop_eq_nil_of_le hlen.le,
      List.nil_append]

theorem RaftLog.padded_contiguous (log : RaftLog) : Contiguous 0 log.padded := by
  have hbase := log.base_nonneg
  have hlen := log.padding_length
  intro i e he
  rw [RaftLog.padded] at he
  rcases Nat.lt_or_ge i log.baseIndex.toNat with hi | hi
  · rw [List.getElem?_append_left (by omega), RaftLog.padding, List.getElem?_map,
      List.getElem?_range hi] at he
    cases he
    simp
  · rw [List.getElem?_append_right (by omega), hlen] at he
    have := log.contiguous _ e he
    omega

/-- A copy is the log itself, unless the constructor refuses its base term. -/
theorem RaftLog.copy_ok {log : RaftLog} (h : 0 ≤ log.baseTerm) : log.copy = .ok log :=
  log.padded_shows.new_of_contiguous log.padded_contiguous h

theorem RaftLog.copy_raises {log : RaftLog} (h : log.baseTerm < 0) : ∃ e, log.copy = .error e := by
  unfold RaftLog.copy RaftLog.new
  rw [dif_neg (not_lt.mpr log.base_nonneg), if_pos h]
  exact ⟨_, rfl⟩

theorem RaftLog.copy_eq {log log' : RaftLog} (h : log.copy = .ok log') : log' = log := by
  rcases lt_or_ge log.baseTerm 0 with hneg | hnonneg
  · obtain ⟨e, he⟩ := RaftLog.copy_raises hneg
    rw [he] at h
    cases h
  · exact Except.ok.inj (h.symm.trans (RaftLog.copy_ok hnonneg))

end PyRaftKv
