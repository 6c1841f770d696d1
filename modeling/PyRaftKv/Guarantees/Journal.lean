/-
# The Raft journal after a torn append

`_append_log_records` writes its records as lines, one after the other, and a crash can stop it
after any character.  `load_log` reads every line or raises.

* `journal_survives_iff` -- what is left is good for the node exactly if it is empty or ends with a
  newline, that is, if the crash came between two records.
* `journal_not_survives` -- one character of a record is enough to keep the node from starting.
-/
import PyRaftKv.Raft.Journal

namespace PyRaftKv

open Formats

/-- **The journal survives** a call that was to add the records `B` to those of `J` and left the
text `s`: the file loads, as the earlier records and some of the new ones, and so it does with any
records behind it that are appended after the restart and fit the log. -/
def Survives (J B : List LogRecord) (s : List Char) : Prop :=
  ∃ k log, replayRecords (J ++ B.take k) = .ok log ∧
    loadJournal (journalText J ++ s) = .ok (log, none) ∧
    ∀ C log', replayRecords (J ++ B.take k ++ C) = .ok log' →
      loadJournal (journalText J ++ s ++ journalText C) = .ok (log', none)

theorem journalText_append (J B : List LogRecord) :
    journalText (J ++ B) = journalText J ++ journalText B := by
  rw [journalText, List.map_append, unlines_append]
  rfl

theorem replayRecords_append {J B : List LogRecord} {log : RaftLog}
    (h : replayRecords (J ++ B) = .ok log) :
    ∃ log', replayRecords J = .ok log' ∧ B.foldlM LogRecord.replay log' = .ok log := by
  unfold replayRecords at h ⊢
  rw [List.foldlM_append] at h
  cases hJ : J.foldlM LogRecord.replay {} with
  | error e =>
    rw [hJ] at h
    cases h
  | ok log' =>
    rw [hJ] at h
    exact ⟨log', rfl, h⟩

theorem loadJournal_ok {records : List LogRecord} {log : RaftLog}
    (h : replayRecords records = .ok log) :
    loadJournal (journalText records) = .ok (log, none) := by
  rw [loadJournal_text, h]
  rfl

/-- A truncation behind the last entry fits every log. -/
theorem truncate_fits (log : RaftLog) :
    ∃ log', LogRecord.replay log (.truncate (log.lastIndex + 1)) = .ok log' := by
  have hlt : ¬ log.lastIndex + 1 ≤ log.baseIndex := by
    have := log.base_le_lastIndex
    omega
  exact ⟨_, if_neg hlt⟩

/-- What a cut leaves: whole records, and perhaps a piece of the next one. -/
theorem cut_journalText {B : List LogRecord} {s t : List Char} (h : journalText B = s ++ t) :
    ∃ k piece, s = journalText (B.take k) ++ piece ∧
      (piece = [] ∨ ∃ r, B[k]? = some r ∧ Piece r.text piece) := by
  obtain ⟨k, piece, hs, hpiece⟩ := cut_unlines _ h
  refine ⟨k, piece, by rw [hs, journalText, List.map_take], hpiece.imp_right ?_⟩
  rintro ⟨l, hl, hp⟩
  rw [List.getElem?_map] at hl
  obtain ⟨r, hr, rfl⟩ := Option.map_eq_some_iff.mp hl
  exact ⟨r, hr, hp⟩

/-- **The journal survives a cut exactly at the end of a line.**  The hypothesis says that the call
would have fitted the log. -/
theorem journal_survives_iff {J B : List LogRecord} {log : RaftLog} {s t : List Char}
    (hfits : replayRecords (J ++ B) = .ok log) (hcut : journalText B = s ++ t) :
    Survives J B s ↔ Terminated s := by
  obtain ⟨k, piece, rfl, hpiece⟩ := cut_journalText hcut
  have htake : replayRecords (J ++ B.take k ++ B.drop k) = .ok log := by
    rw [List.append_assoc, List.take_append_drop]
    exact hfits
  obtain ⟨logk, hlogk, -⟩ := replayRecords_append htake
  constructor
  · rintro ⟨k', log', hlog', hload, hmore⟩
    rcases hpiece with rfl | ⟨r, hr, hp⟩
    · rw [List.append_nil]
      exact terminated_unlines _
    · exfalso
      rw [← List.append_assoc, ← journalText_append] at hload
      by_cases hwhole : piece = r.text
      · subst hwhole
        obtain ⟨log'', hfit⟩ := truncate_fits log'
        have hnext : replayRecords (J ++ B.take k' ++ [.truncate (log'.lastIndex + 1)]) =
            .ok log'' := by
          unfold replayRecords at hlog' ⊢
          rw [List.foldlM_append, hlog']
          exact (bind_pure _).trans hfit
        have hglued := hmore _ _ hnext
        rw [← List.append_assoc, ← journalText_append, List.append_assoc,
          loadJournal_glued hlogk] at hglued
        cases hglued
      · rw [loadJournal_torn hlogk hp hwhole] at hload
        cases hload
  · intro hterminated
    obtain rfl : piece = [] := by
      rcases hpiece with h | ⟨r, -, hp⟩
      · exact h
      · exact absurd hterminated (not_terminated_piece r.text_oneLine hp)
    refine ⟨k, logk, hlogk, ?_, ?_⟩
    · rw [List.append_nil, ← journalText_append]
      exact loadJournal_ok hlogk
    · intro C log' hlog'
      rw [List.append_nil, ← journalText_append, ← journalText_append]
      exact loadJournal_ok hlog'

/-- A call that appends one entry. -/
def oneAppend : List LogRecord := [.append ⟨1, 1, { operation := .delete, key := "x" }⟩]

theorem oneAppend_fits : ∃ log, replayRecords ([] ++ oneAppend) = .ok log := ⟨_, rfl⟩

theorem journal_survives_iff_oneAppend :
    Survives [] oneAppend ((journalText oneAppend).take 1) ↔
      Terminated ((journalText oneAppend).take 1) := by
  obtain ⟨log, hlog⟩ := oneAppend_fits
  exact journal_survives_iff hlog (List.take_append_drop 1 _).symm

/-- **One character of a record keeps the node from starting.** -/
theorem journal_not_survives : ¬ ∀ {J B : List LogRecord} {log : RaftLog} {s t : List Char},
    replayRecords (J ++ B) = .ok log → journalText B = s ++ t → Survives J B s := by
  intro hall
  obtain ⟨log, hlog⟩ := oneAppend_fits
  obtain ⟨k, log', -, hload, -⟩ := hall hlog (List.take_append_drop 1 (journalText oneAppend)).symm
  have hfails : loadJournal (journalText [] ++ (journalText oneAppend).take 1) =
      .error unableToLoad := by
    obtain ⟨u, hu⟩ := LogRecord.text_head (.append ⟨1, 1, { operation := .delete, key := "x" }⟩)
    have htake : (journalText oneAppend).take 1 = ['{'] := by
      rw [oneAppend, journalText_cons, hu]
      rfl
    rw [htake]
    rfl
  rw [hfails] at hload
  cases hload

end PyRaftKv
