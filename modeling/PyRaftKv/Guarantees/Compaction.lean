/-
# A compacted log answers as the full log does

A `RaftLog` stands for the list of all entries from index 1 on, of which it has forgotten those up
to its base.  Every method that changes the log has a counterpart on the full list: compaction does
nothing to it, and a snapshot boundary keeps it where it has the boundary's term, or replaces it by
the snapshot's own history.

`compacted_simulates_full`: the two sides, taken through any calls, stay together, a call raises
exactly where its method says, and what the compacted log answers above its base is what the full
list answers.
-/
import PyRaftKv.Refinement.Window

namespace PyRaftKv

open Consensus

/-! ## 1. Calls on the two sides -/

/-- The methods that change a log. -/
inductive LogCall
  | append (term : Int) (command : RaftCommand)
  | appendEntry (entry : LogEntry)
  | truncateFrom (index : Int)
  | compactThrough (index : Int)
  | installSnapshotBoundary (index term : Int)
  | copy

/-- The call on a `RaftLog`. -/
def LogCall.run (log : RaftLog) : LogCall → Except RaftError RaftLog
  | .append term command => (log.append term command).map (·.2)
  | .appendEntry entry => log.appendEntry entry
  | .truncateFrom index => log.truncateFrom index
  | .compactThrough index => log.compactThrough index
  | .installSnapshotBoundary index term => log.installSnapshotBoundary index term
  | .copy => log.copy

/-- The full list's entry at an index. -/
def fullGet (l : List LogEntry) (index : Int) : Option LogEntry :=
  if index ≤ 0 then none else l[(index - 1).toNat]?

/-- The term at an index of the full list; nothing comes before the first entry. -/
def fullTermAt (l : List LogEntry) (index : Int) : Option Int :=
  if index = 0 then some 0 else (fullGet l index).map (·.term)

/-- The full list's entries from an index on. -/
def fullFrom (l : List LogEntry) (index : Int) : List LogEntry := l.drop (index - 1).toNat

/-- What the call makes of the full list. -/
inductive LogCall.OnFull : LogCall → List LogEntry → List LogEntry → Prop
  | append (l : List LogEntry) (term : Int) (command : RaftCommand) :
      OnFull (.append term command) l (l ++ [⟨l.length + 1, term, command⟩])
  | appendEntry (l : List LogEntry) (entry : LogEntry) :
      OnFull (.appendEntry entry) l (l ++ [entry])
  | truncateFrom (l : List LogEntry) (index : Int) :
      OnFull (.truncateFrom index) l (l.take (index - 1).toNat)
  | compactThrough (l : List LogEntry) (index : Int) : OnFull (.compactThrough index) l l
  | copy (l : List LogEntry) : OnFull .copy l l
  | installKept {l : List LogEntry} {index term : Int} (h : fullTermAt l index = some term) :
      OnFull (.installSnapshotBoundary index term) l l
  /-- `m` is the snapshot's own history. -/
  | installReplaced {l m : List LogEntry} {index term : Int} (h : fullTermAt l index ≠ some term)
      (hm : Contiguous 0 m) (hlength : (m.length : Int) = index) (hterm : lastStamp m = term) :
      OnFull (.installSnapshotBoundary index term) l m

/-- **The full list `l` is what the log stands for.** -/
structure StandsFor (log : RaftLog) (l : List LogEntry) : Prop where
  shows : Shows log l log.baseIndex.toNat
  contiguous : Contiguous 0 l

/-- Calls on both sides.  A call that raises leaves both as they were. -/
inductive BothSides : RaftLog → List LogEntry → List LogCall → RaftLog → List LogEntry → Prop
  | nil (log : RaftLog) (l : List LogEntry) : BothSides log l [] log l
  | returns {log log₁ log' : RaftLog} {l l₁ l' : List LogEntry} {c : LogCall} {cs : List LogCall}
      (hrun : c.run log = .ok log₁) (hfull : c.OnFull l l₁) (hrest : BothSides log₁ l₁ cs log' l') :
      BothSides log l (c :: cs) log' l'
  | raises {log log' : RaftLog} {l l' : List LogEntry} {c : LogCall} {cs : List LogCall}
      {e : RaftError} (hrun : c.run log = .error e) (hrest : BothSides log l cs log' l') :
      BothSides log l (c :: cs) log' l'

/-! ## 2. Where a call raises -/

def LogCall.Raises (log : RaftLog) (c : LogCall) : Prop := ∃ e, c.run log = .error e

/-- When each method raises. -/
structure RaisesExactly (log : RaftLog) : Prop where
  append : ∀ term command, (LogCall.append term command).Raises log ↔ term < 0
  appendEntry : ∀ entry, (LogCall.appendEntry entry).Raises log ↔ entry.index ≠ log.lastIndex + 1
  truncateFrom : ∀ index, (LogCall.truncateFrom index).Raises log ↔ index ≤ log.baseIndex
  compactThrough : ∀ index, (LogCall.compactThrough index).Raises log ↔
    index < log.baseIndex ∨ log.lastIndex < index
  installSnapshotBoundary : ∀ index term, (LogCall.installSnapshotBoundary index term).Raises log ↔
    index < log.baseIndex ∨ index = log.baseIndex ∧ term ≠ log.baseTerm
  copy : LogCall.copy.Raises log ↔ log.baseTerm < 0

/-- What the log answers, against the full list. -/
structure AnswersFor (log : RaftLog) (l : List LogEntry) : Prop where
  lastIndex : log.lastIndex = l.length
  lastTerm : log.lastTerm = lastStamp l
  get : ∀ index, log.baseIndex < index → log.get index = fullGet l index
  termAt : ∀ index, log.baseIndex < index → log.termAt index = fullTermAt l index
  entriesFrom : ∀ index, log.baseIndex < index → log.entriesFrom index = .ok (fullFrom l index)
  baseTerm : log.termAt log.baseIndex = some log.baseTerm
  get_covered : ∀ index ≤ log.baseIndex, log.get index = none
  termAt_covered : ∀ index < log.baseIndex, log.termAt index = none
  entriesFrom_covered : ∀ index ≤ log.baseIndex, ∀ es, log.entriesFrom index = .ok es →
    ∀ e ∈ es, log.baseIndex < e.index

/-! ## 3. Reading -/

section

variable {log log' : RaftLog} {l l' : List LogEntry}

theorem fullGet_succ (l : List LogEntry) (i : Nat) : fullGet l (i + 1) = l[i]? := by
  unfold fullGet
  rw [if_neg (by omega), show ((i : Int) + 1 - 1).toNat = i by omega]

theorem fullTermAt_eq_some {k t : Int} :
    fullTermAt l k = some t ↔ ∃ i : Nat, k = i ∧ i ≤ l.length ∧ t = lastStamp (l.take i) := by
  unfold fullTermAt
  split
  · rename_i hk
    constructor
    · intro h
      exact ⟨0, hk, Nat.zero_le _, (Option.some.inj h).symm⟩
    · rintro ⟨i, rfl, -, rfl⟩
      rw [show i = 0 by omega]
      rfl
  · rename_i hk
    rw [Option.map_eq_some_iff]
    constructor
    · rintro ⟨e, he, rfl⟩
      obtain ⟨i, rfl⟩ : ∃ i : Nat, k = i + 1 := by
        refine ⟨(k - 1).toNat, ?_⟩
        unfold fullGet at he
        split at he
        · cases he
        · omega
      rw [fullGet_succ] at he
      exact ⟨i + 1, by push_cast; rfl, (List.getElem?_eq_some_iff.mp he).1,
        (lastStamp_take_succ he).symm⟩
    · rintro ⟨i, rfl, hi, rfl⟩
      obtain ⟨j, rfl⟩ : ∃ j, i = j + 1 := ⟨i - 1, by omega⟩
      have he : l[j]? = some l[j] := List.getElem?_eq_getElem (by omega)
      exact ⟨l[j], by push_cast; rw [fullGet_succ, he], (lastStamp_take_succ he).symm⟩

namespace StandsFor

theorem of_shows {b : Nat} (h : Shows log l b) (hc : Contiguous 0 l) : StandsFor log l := by
  refine ⟨?_, hc⟩
  rwa [show log.baseIndex.toNat = b by rw [h.base]; rfl]

theorem base (hs : StandsFor log l) : (log.baseIndex.toNat : Int) = log.baseIndex :=
  hs.shows.base.symm

theorem get (hs : StandsFor log l) {index : Int} (hb : log.baseIndex < index) :
    log.get index = fullGet l index := by
  have := hs.base
  obtain ⟨i, rfl⟩ : ∃ i : Nat, index = i + 1 := ⟨(index - 1).toNat, by omega⟩
  rw [fullGet_succ, hs.shows.get_getElem? (by omega)]

/-- From the base on the log knows the full list's terms. -/
theorem termAt (hs : StandsFor log l) {index : Int} (hb : log.baseIndex ≤ index) :
    log.termAt index = fullTermAt l index := by
  have := hs.base
  refine Option.ext fun t => ?_
  rw [hs.shows.termAt_eq_some, fullTermAt_eq_some]
  constructor
  · rintro ⟨i, hi, -, hle, ht⟩
    exact ⟨i, hi, hle, ht⟩
  · rintro ⟨i, hi, hle, ht⟩
    exact ⟨i, hi, by omega, hle, ht⟩

theorem entriesFrom (hs : StandsFor log l) {index : Int} (hb : log.baseIndex < index) :
    log.entriesFrom index = .ok (fullFrom l index) := by
  have := hs.base
  obtain ⟨i, rfl⟩ : ∃ i : Nat, index = i + 1 := ⟨(index - 1).toNat, by omega⟩
  rw [hs.shows.entriesFrom (by omega), fullFrom, show ((i : Int) + 1 - 1).toNat = i by omega]

/-- Where the log ends, it knows no term any more. -/
theorem termAt_eq_none (hs : StandsFor log l) {index : Int} (hb : log.baseIndex ≤ index) :
    log.termAt index = none ↔ log.lastIndex < index := by
  have := hs.base
  obtain ⟨i, rfl⟩ : ∃ i : Nat, index = i := ⟨index.toNat, by omega⟩
  rw [hs.shows.lastIndex, Option.eq_none_iff_forall_ne_some]
  constructor
  · intro h
    by_contra hle
    exact h _ (hs.shows.termAt (by omega) (by omega))
  · intro hlt t ht
    obtain ⟨j, hj, -, hle, -⟩ := hs.shows.termAt_eq_some.mp ht
    omega

theorem answers (hs : StandsFor log l) : AnswersFor log l where
  lastIndex := hs.shows.lastIndex
  lastTerm := hs.shows.lastTerm
  get _ hb := hs.get hb
  termAt _ hb := hs.termAt hb.le
  entriesFrom _ hb := hs.entriesFrom hb
  baseTerm := if_pos rfl
  get_covered _ hb := if_pos (Or.inl hb)
  termAt_covered index hb := by
    unfold RaftLog.termAt RaftLog.get
    rw [if_neg hb.ne, if_pos (Or.inl hb.le)]
    rfl
  entriesFrom_covered index hb es hes e he := by
    unfold RaftLog.entriesFrom at hes
    split at hes
    · cases hes
    · cases hes
      obtain ⟨i, hi⟩ := List.mem_iff_getElem?.mp (List.mem_of_mem_drop he)
      have := log.contiguous i e hi
      omega

/-! ## 4. One call -/

/-- Where every outcome is known, a call raises exactly where it does not return. -/
theorem raises_iff {log : RaftLog} {c : LogCall} {P : Prop} (herror : P → c.Raises log)
    (hok : ¬ P → ∃ log', c.run log = .ok log') : c.Raises log ↔ P := by
  refine ⟨fun ⟨e, he⟩ => ?_, herror⟩
  by_contra hP
  obtain ⟨log', hlog'⟩ := hok hP
  rw [hlog'] at he
  cases he

theorem raisesExactly (hs : StandsFor log l) : RaisesExactly log where
  append term command := by
    refine raises_iff (fun h => ?_) fun h => ?_
    · exact ⟨_, by rw [LogCall.run, RaftLog.append, if_pos h]; rfl⟩
    · exact ⟨_, by rw [LogCall.run, RaftLog.append, if_neg h]; rfl⟩
  appendEntry entry := raises_iff (fun h => ⟨_, dif_pos h⟩) fun h => ⟨_, dif_neg h⟩
  truncateFrom index := raises_iff (fun h => ⟨_, if_pos h⟩) fun h => ⟨_, if_neg h⟩
  compactThrough index := by
    have hbase := hs.base
    refine raises_iff ?_ fun h => ?_
    · rintro (hlt | hgt)
      · exact ⟨_, dif_pos hlt⟩
      · have hlast := log.base_le_lastIndex
        have hnone := (hs.termAt_eq_none (by omega)).mpr hgt
        refine ⟨.valueError s!"Cannot compact missing log index {index}", ?_⟩
        rw [LogCall.run, RaftLog.compactThrough, dif_neg (by omega), dif_neg (by omega), hnone]
    · have hlast := hs.shows.lastIndex
      obtain ⟨k, rfl⟩ : ∃ k : Nat, index = k := ⟨index.toNat, by omega⟩
      obtain ⟨log', hrun, -⟩ := hs.shows.compactThrough (k := k) (by omega) (by omega)
      exact ⟨log', hrun⟩
  installSnapshotBoundary index term := by
    refine raises_iff ?_ fun h => ?_
    · rintro (hlt | ⟨heq, hne⟩)
      · exact ⟨_, dif_pos hlt⟩
      · refine ⟨.valueError "snapshot term conflicts with current boundary", ?_⟩
        rw [LogCall.run, RaftLog.installSnapshotBoundary, dif_neg (by omega), dif_pos heq,
          if_pos hne]
    · rw [LogCall.run, RaftLog.installSnapshotBoundary, dif_neg (by omega)]
      split
      · rename_i heq
        exact ⟨log, if_neg fun hne => h (Or.inr ⟨heq, hne⟩)⟩
      · split <;> exact ⟨_, rfl⟩
  copy := by
    refine raises_iff (fun h => ?_) fun h => ?_
    · exact RaftLog.copy_raises h
    · exact ⟨log, RaftLog.copy_ok (not_lt.mp h)⟩

/-- **One call keeps the two sides together.** -/
theorem run (hs : StandsFor log l) {c : LogCall} (hrun : c.run log = .ok log')
    (hfull : c.OnFull l l') : StandsFor log' l' := by
  have hbase := hs.base
  have hraises := hs.raisesExactly
  have hok : ¬ c.Raises log := by
    rintro ⟨e, he⟩
    rw [he] at hrun
    cases hrun
  cases hfull with
  | append _ term command =>
    have hterm := (hraises.append term command).not.mp hok
    obtain ⟨log₁, happ, hs₁⟩ := hs.shows.append (not_lt.mp hterm) command
    rw [LogCall.run, happ] at hrun
    cases hrun
    exact of_shows hs₁ (hs.contiguous.snoc (by simp))
  | appendEntry _ entry =>
    have hidx := (hraises.appendEntry entry).not.mp hok
    rw [hs.shows.lastIndex, not_not] at hidx
    obtain ⟨log₁, happ, hs₁⟩ := hs.shows.appendEntry hidx
    rw [LogCall.run, happ] at hrun
    cases hrun
    exact of_shows hs₁ (hs.contiguous.snoc (by omega))
  | truncateFrom _ index =>
    have hidx := (hraises.truncateFrom index).not.mp hok
    obtain ⟨i, rfl⟩ : ∃ i : Nat, index = i + 1 := ⟨(index - 1).toNat, by omega⟩
    obtain ⟨log₁, hcut, hs₁⟩ := hs.shows.truncateFrom (i := i) (by omega)
    rw [LogCall.run, hcut] at hrun
    cases hrun
    rw [show ((i : Int) + 1 - 1).toNat = i by omega]
    exact of_shows hs₁ (hs.contiguous.take i)
  | compactThrough _ index =>
    have hidx := (hraises.compactThrough index).not.mp hok
    have hlast := hs.shows.lastIndex
    obtain ⟨k, rfl⟩ : ∃ k : Nat, index = k := ⟨index.toNat, by omega⟩
    obtain ⟨log₁, hcompact, hs₁⟩ := hs.shows.compactThrough (k := k) (by omega) (by omega)
    rw [LogCall.run, hcompact] at hrun
    cases hrun
    exact of_shows hs₁ hs.contiguous
  | copy =>
    rw [RaftLog.copy_eq hrun]
    exact hs
  | @installKept _ index term h =>
    have hidx := (hraises.installSnapshotBoundary index term).not.mp hok
    obtain ⟨k, rfl, hk, rfl⟩ := fullTermAt_eq_some.mp h
    obtain ⟨log₁, hinstall, hs₁⟩ := hs.shows.install_kept (k := k) (by omega) hk
    rw [LogCall.run, hinstall] at hrun
    cases hrun
    exact of_shows hs₁ hs.contiguous
  | installReplaced h hm hlength hterm =>
    subst hlength hterm
    have hidx := (hraises.installSnapshotBoundary l'.length (lastStamp l')).not.mp hok
    have hne : log.termAt l'.length ≠ some (lastStamp l') := by
      rw [hs.termAt (by omega)]
      exact h
    have hlt : log.baseIndex ≠ l'.length := by
      intro heq
      refine hidx (Or.inr ⟨heq.symm, fun hterm => hne ?_⟩)
      rw [← heq, hterm]
      exact if_pos rfl
    obtain ⟨log₁, hinstall, hs₁⟩ := hs.shows.install_fresh (m := l') (by omega) hne
    rw [LogCall.run, hinstall] at hrun
    cases hrun
    exact of_shows hs₁ hm

/-- A call that returns has a counterpart on the full list. -/
theorem exists_onFull (hs : StandsFor log l) {c : LogCall} (hrun : c.run log = .ok log') :
    ∃ l', c.OnFull l l' := by
  cases c with
  | append term command => exact ⟨_, .append l term command⟩
  | appendEntry entry => exact ⟨_, .appendEntry l entry⟩
  | truncateFrom index => exact ⟨_, .truncateFrom l index⟩
  | compactThrough index => exact ⟨l, .compactThrough l index⟩
  | copy => exact ⟨l, .copy l⟩
  | installSnapshotBoundary index term =>
    by_cases h : fullTermAt l index = some term
    · exact ⟨l, .installKept h⟩
    · have hidx : ¬ (LogCall.installSnapshotBoundary index term).Raises log := by
        rintro ⟨e, he⟩
        rw [hrun] at he
        cases he
      rw [hs.raisesExactly.installSnapshotBoundary, not_or, not_and, not_not] at hidx
      have hnn := log.base_nonneg
      have hlt : log.baseIndex < index := by
        refine lt_of_le_of_ne (not_lt.mp hidx.1) fun heq => h ?_
        rw [← hs.termAt heq.le, ← heq, hidx.2 heq.symm]
        exact if_pos rfl
      -- a history for the snapshot: the stand-ins below its boundary
      have hm := (RaftLog.boundary index term (by omega) (by omega)).padded_shows
      exact ⟨_, .installReplaced h (RaftLog.padded_contiguous _) hm.lastIndex.symm hm.lastTerm.symm⟩

end StandsFor

/-! ## 5. Any calls -/

/-- **A compacted log simulates the full log**: taken through any calls, it stands for what they
make of the full list; a call raises exactly where its method says, and then changes nothing; and
the log answers above its base what the full list answers. -/
theorem compacted_simulates_full {cs : List LogCall} (hs : StandsFor log l)
    (hrun : BothSides log l cs log' l') :
    StandsFor log' l' ∧ RaisesExactly log' ∧ AnswersFor log' l' := by
  suffices h : StandsFor log' l' from ⟨h, h.raisesExactly, h.answers⟩
  induction hrun with
  | nil log l => exact hs
  | returns hrun hfull _ ih => exact ih (hs.run hrun hfull)
  | raises _ _ ih => exact ih hs

/-- Any calls can be taken on both sides. -/
theorem StandsFor.bothSides (cs : List LogCall) : ∀ {log : RaftLog} {l : List LogEntry},
    StandsFor log l → ∃ log' l', BothSides log l cs log' l' := by
  induction cs with
  | nil => exact fun {log l} _ => ⟨log, l, .nil log l⟩
  | cons c cs ih =>
    intro log l hs
    cases hrun : c.run log with
    | error e =>
      obtain ⟨log', l', hrest⟩ := ih hs
      exact ⟨log', l', .raises hrun hrest⟩
    | ok log₁ =>
      obtain ⟨l₁, hfull⟩ := hs.exists_onFull hrun
      obtain ⟨log', l', hrest⟩ := ih (hs.run hrun hfull)
      exact ⟨log', l', .returns hrun hfull hrest⟩

end

/-- Four entries, of the terms 1, 1, 2 and 2. -/
def fourEntries : List LogEntry :=
  [⟨1, 1, ⟨.put, "1", "1"⟩⟩, ⟨2, 1, ⟨.put, "2", "2"⟩⟩, ⟨3, 2, ⟨.put, "3", "3"⟩⟩,
    ⟨4, 2, ⟨.put, "4", "4"⟩⟩]

/-- They were compacted through index 2. -/
def compactedLog : RaftLog := { baseIndex := 2, baseTerm := 1, entries := fourEntries.drop 2 }

theorem compactedLog_standsFor : StandsFor compactedLog fourEntries :=
  ⟨⟨rfl, rfl, rfl, by decide⟩, by decide⟩

/-- A call that raises and a boundary that replaces the log. -/
theorem compacted_simulates_full_replaced : ∃ log' l',
    BothSides compactedLog fourEntries [.truncateFrom 2, .installSnapshotBoundary 3 9] log' l' ∧
      StandsFor log' l' ∧ RaisesExactly log' ∧ AnswersFor log' l' ∧ log'.entries = [] := by
  obtain ⟨log', l', hboth⟩ : ∃ log' l', BothSides compactedLog fourEntries
      [.truncateFrom 2, .installSnapshotBoundary 3 9] log' l' :=
    compactedLog_standsFor.bothSides _
  obtain ⟨hs, hraises, hanswers⟩ := compacted_simulates_full compactedLog_standsFor hboth
  refine ⟨log', l', hboth, hs, hraises, hanswers, ?_⟩
  cases hboth with
  | returns hrun => cases hrun
  | raises _ hrest =>
    cases hrest with
    | raises hrun => cases hrun
    | returns hrun _ hrest =>
      cases hrun
      cases hrest
      rfl

end PyRaftKv
