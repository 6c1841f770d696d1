/-
# Malformed input

The decoders, the routes and `load_log` all expect `KeyError`, `TypeError` and `ValueError` of a
value that is not what it should be.  Two kinds of values raise another exception: an infinite
number, which JSON can spell, makes `int` raise `OverflowError`; a command that is no object makes
`command_from_dict` raise `AttributeError`, for it calls `get` before it looks at a field.
`malformed_escapes` runs both through a decoder, a route and a file.

`rejected_iff` says exactly when this happens: where one of these is what the decoder comes to
first, before any other fault.  In a file, the lines before have to be a journal that loads.

On a journal that the node wrote itself `load_log` does what its reader does
(`loadLog_of_loadJournal`).
-/
import PyRaftKv.Raft.LoadLog

namespace PyRaftKv

open Formats PyJson

variable (py : Interpreter)

/-! ## 1. One record -/

theorem harmless_snoc {vs : List Ruling} {v : Ruling} (hv : v ≠ .fatal) :
    NotFatal (vs ++ [v]) ↔ NotFatal vs := by
  unfold NotFatal
  rw [firstFault_append]
  cases firstFault vs with
  | some w => rfl
  | none => cases v <;> simp_all

section Guarded

variable {α : Type} {x : Except PyError α}

theorem guarded_safe : Safe LoadError.Expected (guarded x) ↔ Safe PyError.Caught x := by
  cases x with
  | ok a => exact iff_of_true (fun e he => nomatch he) (fun e he => nomatch he)
  | error e =>
    by_cases he : e.Caught
    · simp only [guarded, if_pos he]
      refine iff_of_true ?_ ?_
      · rintro e' ⟨⟩
        trivial
      · rintro e' ⟨⟩
        exact he
    · simp only [guarded, if_neg he]
      exact iff_of_false (fun h => h _ rfl) fun h => he (h e rfl)

theorem guarded_eq_ok {a : α} : guarded x = .ok a ↔ x = .ok a := by
  cases x with
  | ok b => simp [guarded]
  | error e =>
    unfold guarded
    by_cases he : e.Caught <;> simp [he]

end Guarded

theorem callRuling_logMethod {α : Type} (x : Except RaftError α) :
    callRuling (logMethod x) ≠ .fatal := by
  cases x with
  | ok a => simp [logMethod, callRuling]
  | error e => simp [logMethod, callRuling, PyError.Caught]

/-- The index of an entry is the one that was read. -/
theorem logEntryFromDict_index {data : PyJson} {e : LogEntry}
    (h : logEntryFromDict py data = .ok e) : data.getItem "index" >>= toInt py = .ok e.index := by
  unfold logEntryFromDict at h
  obtain ⟨index, hindex, h⟩ := bind_eq_ok.mp h
  obtain ⟨term, -, h⟩ := bind_eq_ok.mp h
  obtain ⟨command, -, h⟩ := bind_eq_ok.mp h
  cases h
  exact hindex

theorem logMethod_eq_ok {α : Type} {x : Except RaftError α} {a : α} :
    logMethod x = .ok a ↔ x = .ok a := by
  cases x <;> simp [logMethod]

/-- An entry that is appended. -/
theorem appendRawEntry_judged (log : RaftLog) (rawEntry : PyJson) :
    Judged PyError.Caught (appendRawEntry py log rawEntry) (logEntryRulings py rawEntry ++
      [if rawEntry.getItem "index" >>= toInt py = .ok (log.lastIndex + 1) then .fine
        else .refused]) := by
  refine (logEntryFromDict_judged py rawEntry).bind fun e he => ?_
  rw [logEntryFromDict_index py he]
  unfold RaftLog.appendEntry
  by_cases hidx : e.index = log.lastIndex + 1
  · rw [dif_neg (not_not.mpr hidx), if_pos (by rw [hidx])]
    exact ⟨_, rfl⟩
  · rw [dif_pos hidx, if_neg fun h => hidx (Except.ok.inj h)]
    exact .refused trivial

theorem RaftLog.lastIndex_appendEntry {log log' : RaftLog} {e : LogEntry}
    (h : log.appendEntry e = .ok log') : log'.lastIndex = log.lastIndex + 1 := by
  unfold RaftLog.appendEntry at h
  split at h
  · cases h
  · cases h
    rw [RaftLog.lastIndex_eq, RaftLog.lastIndex_eq]
    simp
    omega

/-- The entries of an array. -/
theorem foldlM_appendRawEntry_judged (rawEntries : List PyJson) : ∀ log : RaftLog,
    Judged PyError.Caught (rawEntries.foldlM (appendRawEntry py) log)
      (arrayRulings py (log.lastIndex + 1) rawEntries) := by
  induction rawEntries with
  | nil => exact fun log => .ok log
  | cons rawEntry rest ih =>
    intro log
    rw [List.foldlM_cons]
    refine (appendRawEntry_judged py log rawEntry).bind fun log' hlog' => ?_
    have hlast : log'.lastIndex = log.lastIndex + 1 := by
      obtain ⟨e, -, happend⟩ := bind_eq_ok.mp hlog'
      exact RaftLog.lastIndex_appendEntry (logMethod_eq_ok.mp happend)
    rw [← hlast]
    exact ih log'

/-- A snapshot record. -/
theorem readSnapshot_judged (members : List (String × PyJson)) (rawEntries : List PyJson) :
    Judged PyError.Caught (readSnapshot py members rawEntries)
      (snapshotRulings py members rawEntries) := by
  unfold readSnapshot snapshotRulings
  refine (judged_toInt py _).bind fun baseIndex hindex => ?_
  refine (judged_toInt py _).bind fun baseTerm hterm => ?_
  have hindex' : intOr0 py members "base_index" = .ok baseIndex := hindex
  have hterm' : intOr0 py members "base_term" = .ok baseTerm := hterm
  rw [hindex', hterm']
  simp only
  by_cases hbad : baseIndex < 0 ∨ baseTerm < 0 ∨ baseIndex = 0 ∧ baseTerm ≠ 0
  · obtain ⟨e, he⟩ : ∃ e, RaftLog.new baseIndex baseTerm [] = .error e := by
      unfold RaftLog.new
      split_ifs with h1 h2 h3
      · exact ⟨_, rfl⟩
      · exact ⟨_, rfl⟩
      · exact ⟨_, rfl⟩
      · exact absurd hbad (by tauto)
    rw [if_pos hbad, he]
    exact .refused trivial
  · obtain ⟨log, hlog, hlast⟩ : ∃ log : RaftLog, RaftLog.new baseIndex baseTerm [] = .ok log ∧
        log.lastIndex = baseIndex := by
      unfold RaftLog.new
      rw [dif_neg (by tauto), if_neg (by tauto), dif_neg (by tauto)]
      exact ⟨_, rfl, rfl⟩
    rw [if_neg hbad, hlog, ← hlast]
    exact foldlM_appendRawEntry_judged py rawEntries log

theorem readTruncate_judged (log : RaftLog) (record : PyJson) : ∃ v ≠ .fatal,
    Judged PyError.Caught (readTruncate py log record)
      (intField py "from_index" record ++ [v]) := by
  rcases hindex : record.getItem "from_index" >>= toInt py with e | index
  · refine ⟨.fine, by decide, (judged_intField py "from_index" record).bind fun index hok => ?_⟩
    rw [hindex] at hok
    cases hok
  · refine ⟨_, callRuling_logMethod (log.truncateFrom index),
      (judged_intField py "from_index" record).bind fun index' hok => ?_⟩
    obtain rfl : index = index' := Except.ok.inj (hindex.symm.trans hok)
    exact judged_call _

/-- **A record is loaded or refused, unless it stops at a fatal part.** -/
theorem loadRecord_safe (lineNumber : Nat) (log : RaftLog) (record : PyJson) :
    Safe LoadError.Expected (loadRecord py lineNumber log record) ↔
      NotFatal (recordRulings py record) := by
  have hrefused : ∀ message : String,
      Safe LoadError.Expected (.error (.raftPersistenceError message) : Except LoadError RaftLog) ↔
        NotFatal [.refused] := by
    refine fun message => iff_of_true ?_ (by decide)
    rintro e ⟨⟩
    trivial
  cases record with
  | obj members =>
    simp only [loadRecord, recordRulings]
    split
    · split
      · exact guarded_safe.trans (readSnapshot_judged py _ _).safe_iff
      · exact hrefused _
    · split
      · rename_i rawEntry _
        refine guarded_safe.trans ((appendRawEntry_judged py log _).safe_iff.trans ?_)
        refine harmless_snoc ?_
        split <;> decide
      · exact hrefused _
    · obtain ⟨v, hv, hjudged⟩ := readTruncate_judged py log (.obj members)
      exact guarded_safe.trans (hjudged.safe_iff.trans (harmless_snoc hv))
    · exact hrefused _
  | _ => exact hrefused _

theorem foldlM_appendRawEntry_eq_ok (rawEntries : List PyJson) : ∀ {log log' : RaftLog},
    rawEntries.foldlM (appendRawEntry py) log = .ok log' ↔
      ∃ entries, rawEntries.mapM (logEntryFromDict py) = .ok entries ∧
        entries.foldlM RaftLog.appendEntry log = .ok log' := by
  induction rawEntries with
  | nil => simp [pure, Except.pure]
  | cons rawEntry rest ih =>
    intro log log'
    rw [List.foldlM_cons, bind_eq_ok, List.mapM_cons]
    constructor
    · rintro ⟨log₁, hfirst, hrest⟩
      obtain ⟨e, he, happend⟩ := bind_eq_ok.mp hfirst
      obtain ⟨entries, hentries, hfold⟩ := ih.mp hrest
      refine ⟨e :: entries, by rw [he, hentries]; rfl, ?_⟩
      rw [List.foldlM_cons, logMethod_eq_ok.mp happend]
      exact hfold
    · rintro ⟨entries, hmap, hfold⟩
      obtain ⟨e, he, hmap⟩ := bind_eq_ok.mp hmap
      obtain ⟨es, hes, heq⟩ := bind_eq_ok.mp hmap
      cases heq
      rw [List.foldlM_cons] at hfold
      obtain ⟨log₁, happend, hfold⟩ := bind_eq_ok.mp hfold
      exact ⟨log₁, bind_eq_ok.mpr ⟨e, he, logMethod_eq_ok.mpr happend⟩, ih.mpr ⟨es, hes, hfold⟩⟩

/-- What the loop does with a record is what its replay does. -/
theorem loadRecord_eq_ok {lineNumber : Nat} {log log' : RaftLog} {record : PyJson} :
    loadRecord py lineNumber log record = .ok log' ↔
      ∃ r, recordOf py record = .ok r ∧ r.replay log = .ok log' := by
  cases record with
  | obj members =>
    simp only [loadRecord, recordOf]
    split
    · split
      · rw [guarded_eq_ok]
        constructor
        · intro h
          obtain ⟨baseIndex, hindex, h⟩ := bind_eq_ok.mp h
          obtain ⟨baseTerm, hterm, h⟩ := bind_eq_ok.mp h
          obtain ⟨log₁, hnew, h⟩ := bind_eq_ok.mp h
          obtain ⟨entries, hentries, hfold⟩ := (foldlM_appendRawEntry_eq_ok py _).mp h
          refine ⟨.snapshot baseIndex baseTerm entries, by rw [hindex, hterm, hentries]; rfl, ?_⟩
          rw [LogRecord.replay, logMethod_eq_ok.mp hnew]
          exact hfold
        · rintro ⟨r, hr, hreplay⟩
          obtain ⟨baseIndex, hindex, hr⟩ := bind_eq_ok.mp hr
          obtain ⟨baseTerm, hterm, hr⟩ := bind_eq_ok.mp hr
          obtain ⟨entries, hentries, hr⟩ := bind_eq_ok.mp hr
          cases hr
          obtain ⟨log₁, hnew, hfold⟩ := bind_eq_ok.mp hreplay
          refine bind_eq_ok.mpr ⟨baseIndex, hindex, bind_eq_ok.mpr ⟨baseTerm, hterm, ?_⟩⟩
          exact bind_eq_ok.mpr ⟨log₁, logMethod_eq_ok.mpr hnew,
            (foldlM_appendRawEntry_eq_ok py _).mpr ⟨entries, hentries, hfold⟩⟩
      · exact iff_of_false (by rintro ⟨⟩) (by rintro ⟨_, ⟨⟩, _⟩)
    · split
      · rw [guarded_eq_ok]
        constructor
        · intro h
          obtain ⟨e, he, happend⟩ := bind_eq_ok.mp h
          exact ⟨.append e, by rw [he]; rfl, logMethod_eq_ok.mp happend⟩
        · rintro ⟨r, hr, hreplay⟩
          obtain ⟨e, he, hr⟩ := bind_eq_ok.mp hr
          cases hr
          exact bind_eq_ok.mpr ⟨e, he, logMethod_eq_ok.mpr hreplay⟩
      · exact iff_of_false (by rintro ⟨⟩) (by rintro ⟨_, ⟨⟩, _⟩)
    · rw [guarded_eq_ok]
      constructor
      · intro h
        obtain ⟨index, hindex, htruncate⟩ := bind_eq_ok.mp h
        exact ⟨.truncate index, by rw [hindex]; rfl, logMethod_eq_ok.mp htruncate⟩
      · rintro ⟨r, hr, hreplay⟩
        obtain ⟨index, hindex, hr⟩ := bind_eq_ok.mp hr
        cases hr
        exact bind_eq_ok.mpr ⟨index, hindex, logMethod_eq_ok.mpr hreplay⟩
    · exact iff_of_false (by rintro ⟨⟩) (by rintro ⟨_, ⟨⟩, _⟩)
  | _ => exact iff_of_false (by rintro ⟨⟩) (by rintro ⟨_, ⟨⟩, _⟩)

/-! ## 2. A file -/

theorem Loadable.nil (log : RaftLog) : Loadable py [] log := ⟨[], log, rfl, rfl⟩

theorem loadable_blank {line : List Char} (h : blankLine line = true) (lines : List (List Char))
    (log : RaftLog) : Loadable py (line :: lines) log ↔ Loadable py lines log := by
  unfold Loadable recordsOf
  rw [List.filter_cons_of_neg (by simp [h])]

/-- A line that is loaded takes the journal one record further. -/
theorem loadable_cons {line : List Char} {record : PyJson} {lineNumber : Nat} {log log' : RaftLog}
    (hblank : blankLine line = false) (hloads : py.loads line = .ok record)
    (hrecord : loadRecord py lineNumber log record = .ok log') (lines : List (List Char)) :
    Loadable py (line :: lines) log ↔ Loadable py lines log' := by
  obtain ⟨r, hr, hreplay⟩ := (loadRecord_eq_ok py).mp hrecord
  unfold Loadable recordsOf
  have hline : py.loads line >>= recordOf py = .ok r := by
    rw [hloads]
    exact hr
  rw [List.filter_cons_of_pos (by simp [hblank]), List.mapM_cons, hline]
  constructor
  · rintro ⟨records, log₁, hrecords, hfold⟩
    obtain ⟨_, hfirst, hrecords⟩ := bind_eq_ok.mp hrecords
    obtain ⟨rs, hrs, heq⟩ := bind_eq_ok.mp hrecords
    cases hfirst
    cases heq
    rw [List.foldlM_cons, hreplay] at hfold
    exact ⟨rs, log₁, hrs, hfold⟩
  · rintro ⟨rs, log₁, hrs, hfold⟩
    refine ⟨r :: rs, log₁, bind_eq_ok.mpr ⟨r, rfl, bind_eq_ok.mpr ⟨rs, hrs, rfl⟩⟩, ?_⟩
    rw [List.foldlM_cons, hreplay]
    exact hfold

/-- A line that is not loaded ends the journal. -/
theorem loadable_error {line : List Char} (lineNumber : Nat) (log : RaftLog)
    (hblank : blankLine line = false)
    (h : ∀ record log', py.loads line = .ok record →
      loadRecord py lineNumber log record ≠ .ok log') (lines : List (List Char)) :
    ¬ Loadable py (line :: lines) log := by
  rintro ⟨records, log₁, hrecords, hfold⟩
  unfold recordsOf at hrecords
  rw [List.filter_cons_of_pos (by simp [hblank]), List.mapM_cons] at hrecords
  obtain ⟨r, hr, hrecords⟩ := bind_eq_ok.mp hrecords
  obtain ⟨record, hloads, hr⟩ := bind_eq_ok.mp hr
  obtain ⟨rs, -, heq⟩ := bind_eq_ok.mp hrecords
  cases heq
  rw [List.foldlM_cons] at hfold
  obtain ⟨log', hreplay, -⟩ := bind_eq_ok.mp hfold
  exact h record log' hloads ((loadRecord_eq_ok py).mpr ⟨r, hr, hreplay⟩)

/-- The first line alone decides where it is not loaded. -/
theorem lines_of_error {line : List Char} {lines : List (List Char)} {log : RaftLog}
    (h : ∀ lines, ¬ Loadable py (line :: lines) log) :
    (∀ k line', (line :: lines)[k]? = some line' → Loadable py ((line :: lines).take k) log →
      NotFatal (lineRulings py line')) ↔ NotFatal (lineRulings py line) := by
  refine ⟨fun hall => hall 0 line rfl (.nil py log), fun hfirst k line' hk hload => ?_⟩
  cases k with
  | zero =>
    cases hk
    exact hfirst
  | succ k => exact absurd hload (h _)

/-- A line that is loaded hands the question on to the lines behind it. -/
theorem lines_of_ok {line : List Char} {lines : List (List Char)} {log log' : RaftLog}
    (hharmless : NotFatal (lineRulings py line))
    (h : ∀ lines, Loadable py (line :: lines) log ↔ Loadable py lines log') :
    (∀ k line', (line :: lines)[k]? = some line' → Loadable py ((line :: lines).take k) log →
      NotFatal (lineRulings py line')) ↔
    ∀ k line', lines[k]? = some line' → Loadable py (lines.take k) log' →
      NotFatal (lineRulings py line') := by
  constructor
  · exact fun hall k line' hk hload => hall (k + 1) line' hk ((h _).mpr hload)
  · intro hall k line' hk hload
    cases k with
    | zero =>
      cases hk
      exact hharmless
    | succ k => exact hall k line' hk ((h _).mp hload)

/-- **The loop is safe exactly if no line behind a journal that loads stops at a fatal part.** -/
theorem loadLines_safe (lines : List (List Char)) : ∀ (lineNumber : Nat) (log : RaftLog),
    Safe LoadError.Expected (loadLines py lineNumber lines log) ↔
      ∀ k line, lines[k]? = some line → Loadable py (lines.take k) log →
        NotFatal (lineRulings py line) := by
  induction lines with
  | nil => exact fun _ log => iff_of_true (fun e he => nomatch he) fun k line hk => nomatch hk
  | cons line lines ih =>
    intro lineNumber log
    unfold loadLines
    cases hblank : blankLine line with
    | true =>
      have hrulings : lineRulings py line = [] := by rw [lineRulings, if_pos hblank]
      rw [if_pos rfl, ih, lines_of_ok py (by rw [hrulings]; decide) fun lines =>
        loadable_blank py hblank lines log]
    | false =>
      rw [if_neg Bool.false_ne_true]
      cases hloads : py.loads line with
      | error e =>
        have hrulings : lineRulings py line =
            [callRuling (.error e : Except PyError PyJson)] := by
          rw [lineRulings, if_neg (by rw [hblank]; exact Bool.false_ne_true), hloads]
        have hnot := loadable_error py lineNumber log hblank fun record log' h => by
          rw [hloads] at h
          cases h
        rw [lines_of_error py hnot, hrulings,
          ← (judged_call (.error e : Except PyError PyJson)).safe_iff, ← guarded_safe]
        unfold guarded
        split
        · cases ‹Except.error e = Except.ok _›
        · split <;> exact safe_error_bind
      | ok record =>
        have hrulings : lineRulings py line = recordRulings py record := by
          rw [lineRulings, if_neg (by rw [hblank]; exact Bool.false_ne_true), hloads]
        have hsafe := loadRecord_safe py lineNumber log record
        change Safe _ (loadRecord py lineNumber log record >>= fun log =>
          loadLines py (lineNumber + 1) lines log) ↔ _
        cases hrecord : loadRecord py lineNumber log record with
        | error e =>
          have hnot := loadable_error py lineNumber log hblank fun record' log' h => by
            rw [hloads] at h
            cases h
            rw [hrecord]
            exact fun h => nomatch h
          rw [lines_of_error py hnot, hrulings, ← hsafe, hrecord]
          exact safe_error_bind
        | ok log' =>
          rw [hrecord] at hsafe
          have hharmless : NotFatal (lineRulings py line) :=
            hrulings ▸ hsafe.mp fun e he => nomatch he
          rw [lines_of_ok py hharmless (loadable_cons py hblank hloads hrecord), ← ih]
          rfl

/-- **`load_log` answers or raises `RaftPersistenceError`.** -/
theorem loadLog_safe (content : List Char) :
    Safe LoadError.Expected (loadLog py content) ↔ HarmlessFile py content := by
  have hlines : Safe LoadError.Expected
      ((loadLines py 1 (splitLines content) {}).map (·, (none : Option (List LogRecord)))) ↔
        HarmlessLines py (splitLines content) := safe_map.trans (loadLines_safe py _ 1 {})
  unfold loadLog HarmlessFile
  by_cases hblank : blankLine content = true
  · rw [if_pos hblank]
    exact iff_of_true (fun e he => by cases he) (Or.inl hblank)
  rw [if_neg hblank, or_iff_right hblank]
  cases py.loads content with
  | error e =>
    simp only
    by_cases he : e = .jsonDecodeError
    · rw [if_pos he]
      exact hlines.trans (and_iff_right he).symm
    · rw [if_neg he]
      exact iff_of_false (fun h => h _ rfl) fun h => he h.1
  | ok value =>
    cases value with
    | arr legacyData =>
      have hfold := foldlM_appendRawEntry_judged py legacyData {}
      exact safe_map.trans (guarded_safe.trans hfold.safe_iff)
    | _ => exact hlines

/-! ## 3. The journal of the node itself -/

section Plain

variable {data value : Json} {key : String}

theorem toInt_ofJson {n : Int} (h : asInt value = some n) :
    toInt plainPython (ofJson value) = .ok n := by
  cases value <;> cases h <;> simp [ofJson, toInt]

theorem toText_ofJson {s : String} (h : asText value = some s) :
    toText plainPython (ofJson value) = .ok s := by
  cases value <;> cases h
  simp [ofJson, toText]

theorem commandFromDict_ofJson {c : RaftCommand} (h : commandFromJson data = some c) :
    commandFromDict plainPython (ofJson data) = .ok c := by
  obtain ⟨operation, hoperation, h⟩ := Option.bind_eq_some_iff.mp h
  obtain ⟨key, hkey, h⟩ := Option.bind_eq_some_iff.mp h
  obtain ⟨o, ho, hoperation⟩ := Option.bind_eq_some_iff.mp hoperation
  obtain ⟨k, hk, hkey⟩ := Option.bind_eq_some_iff.mp hkey
  have hvalue : ∃ value, ((ofJson data).getD "value" .null >>= optionalText plainPython) =
      .ok value ∧ c = ⟨.ofText operation, key, value⟩ := by
    rw [getD_ofJson ho]
    rcases hget : data.get? "value" with _ | value
    · rw [hget] at h
      cases h
      exact ⟨none, by rfl, rfl⟩
    · rw [hget] at h
      cases value <;> cases h <;> exact ⟨_, by simp [ofJson]; rfl, rfl⟩
  obtain ⟨value, hvalue, rfl⟩ := hvalue
  unfold commandFromDict
  rw [getItem_ofJson ho, getItem_ofJson hk]
  exact bind_eq_ok.mpr ⟨value, hvalue, bind_eq_ok.mpr ⟨operation, toText_ofJson hoperation,
    bind_eq_ok.mpr ⟨key, toText_ofJson hkey, rfl⟩⟩⟩

theorem logEntryFromDict_ofJson {e : LogEntry} (h : logEntryFromJson data = some e) :
    logEntryFromDict plainPython (ofJson data) = .ok e := by
  obtain ⟨index, hindex, h⟩ := Option.bind_eq_some_iff.mp h
  obtain ⟨term, hterm, h⟩ := Option.bind_eq_some_iff.mp h
  obtain ⟨command, hcommand, h⟩ := Option.bind_eq_some_iff.mp h
  cases h
  obtain ⟨i, hi, hindex⟩ := Option.bind_eq_some_iff.mp hindex
  obtain ⟨t, ht, hterm⟩ := Option.bind_eq_some_iff.mp hterm
  obtain ⟨c, hc, hcommand⟩ := Option.bind_eq_some_iff.mp hcommand
  unfold logEntryFromDict
  rw [getItem_ofJson hi, getItem_ofJson ht, getItem_ofJson hc]
  exact bind_eq_ok.mpr ⟨index, toInt_ofJson hindex, bind_eq_ok.mpr ⟨term, toInt_ofJson hterm,
    bind_eq_ok.mpr ⟨command, commandFromDict_ofJson hcommand, rfl⟩⟩⟩

theorem appendRawEntry_ofJson {log log' : RaftLog} (h : appendRaw log data = .ok log') :
    appendRawEntry plainPython log (ofJson data) = .ok log' := by
  obtain ⟨entry, hentry, happend⟩ := bind_eq_ok.mp h
  refine bind_eq_ok.mpr ⟨entry, logEntryFromDict_ofJson (orUnable_eq_ok.mp hentry), ?_⟩
  rw [hideError_eq_ok.mp happend]
  rfl

theorem foldlM_appendRawEntry_ofJson : ∀ {items : List Json} {log log' : RaftLog},
    items.foldlM appendRaw log = .ok log' →
      (ofItems items).foldlM (appendRawEntry plainPython) log = .ok log'
  | [], log, log', h => by
    cases h
    rw [ofItems]
    rfl
  | item :: items, log, log', h => by
    rw [List.foldlM_cons] at h
    obtain ⟨log₁, hfirst, hrest⟩ := bind_eq_ok.mp h
    rw [ofItems, List.foldlM_cons]
    exact bind_eq_ok.mpr ⟨log₁, appendRawEntry_ofJson hfirst, foldlM_appendRawEntry_ofJson hrest⟩

theorem intOr0_ofJson {members : List (String × Json)} {n : Int}
    (h : intOrZero (.obj members) key = some n) :
    intOr0 plainPython (ofMembers members) key = .ok n := by
  unfold intOrZero at h
  rw [intOr0, lookup_ofMembers]
  rcases hget : (Json.obj members).get? key with _ | value
  · rw [hget] at h
    cases h
    rfl
  · rw [hget] at h
    exact toInt_ofJson h

theorem loadRecord_ofJson {lineNumber : Nat} {log log' : RaftLog} {record : Json}
    (h : readRecord lineNumber log record = .ok log') :
    loadRecord plainPython lineNumber log (ofJson record) = .ok log' := by
  cases record with
  | obj members =>
    simp only [readRecord] at h
    rw [ofJson]
    simp only [loadRecord, lookup_ofMembers]
    split at h
    · rename_i htype
      rw [htype]
      split at h
      · rename_i rawEntries hentries
        rw [hentries]
        obtain ⟨baseIndex, hindex, h⟩ := bind_eq_ok.mp h
        obtain ⟨baseTerm, hterm, h⟩ := bind_eq_ok.mp h
        obtain ⟨log₁, hnew, hfold⟩ := bind_eq_ok.mp h
        simp only [Option.map_some, ofJson]
        refine guarded_eq_ok.mpr (bind_eq_ok.mpr ⟨baseIndex,
          intOr0_ofJson (orUnable_eq_ok.mp hindex), bind_eq_ok.mpr ⟨baseTerm,
            intOr0_ofJson (orUnable_eq_ok.mp hterm), bind_eq_ok.mpr ⟨log₁, ?_,
              foldlM_appendRawEntry_ofJson hfold⟩⟩⟩)
        exact logMethod_eq_ok.mpr (hideError_eq_ok.mp hnew)
      · cases h
    · rename_i htype
      rw [htype]
      split at h
      · rename_i rawEntry hentry
        rw [hentry]
        simp only [Option.map_some, ofJson]
        refine guarded_eq_ok.mpr ?_
        have := appendRawEntry_ofJson h
        rwa [ofJson] at this
      · cases h
    · rename_i htype
      rw [htype]
      obtain ⟨index, hindex, htruncate⟩ := bind_eq_ok.mp h
      obtain ⟨value, hvalue, hindex⟩ := Option.bind_eq_some_iff.mp (orUnable_eq_ok.mp hindex)
      simp only [Option.map_some, ofJson]
      have hget := getItem_ofJson hvalue
      rw [ofJson] at hget
      refine guarded_eq_ok.mpr (bind_eq_ok.mpr ⟨index, ?_,
        logMethod_eq_ok.mpr (hideError_eq_ok.mp htruncate)⟩)
      rw [hget]
      exact toInt_ofJson hindex
    · cases h
  | _ => cases h

theorem loadLines_ofJson : ∀ {lines : List (List Char)} {lineNumber : Nat} {log log' : RaftLog},
    readLines lineNumber lines log = .ok log' →
      loadLines plainPython lineNumber lines log = .ok log'
  | [], _, _, _, h => by
    cases h
    rfl
  | line :: lines, lineNumber, log, log', h => by
    unfold readLines at h
    unfold loadLines
    split at h
    · rename_i hblank
      rw [if_pos hblank]
      exact loadLines_ofJson h
    · rename_i hblank
      rw [if_neg hblank]
      obtain ⟨record, hload, h⟩ := bind_eq_ok.mp h
      obtain ⟨log₁, hrecord, hrest⟩ := bind_eq_ok.mp h
      refine bind_eq_ok.mpr ⟨ofJson record, guarded_eq_ok.mpr ?_,
        bind_eq_ok.mpr ⟨log₁, loadRecord_ofJson hrecord, loadLines_ofJson hrest⟩⟩
      exact plainPython_loads (orUnable_eq_ok.mp hload)

/-- **The reader of a node's own journal is `load_log`**: what it makes of a file, `load_log` makes
of it. -/
theorem loadLog_of_loadJournal {content : List Char} {r : RaftLog × Option (List LogRecord)}
    (h : loadJournal content = .ok r) : loadLog plainPython content = .ok r := by
  unfold loadJournal at h
  unfold loadLog
  split at h
  · rename_i hblank
    cases h
    rw [if_pos hblank]
  · rename_i hblank
    rw [if_neg hblank]
    split at h
    · rename_i legacyData hload
      obtain ⟨log, hfold, h⟩ := bind_eq_ok.mp h
      cases h
      rw [plainPython_loads hload, ofJson]
      simp only [guarded_eq_ok.mpr (foldlM_appendRawEntry_ofJson hfold)]
      rfl
    · rename_i hnot
      obtain ⟨log, hlines, rfl⟩ : ∃ log, readLines 1 (splitLines content) {} = .ok log ∧
          r = (log, none) := by
        rcases hrun : readLines 1 (splitLines content) {} with e | log
        · rw [hrun] at h
          cases h
        · rw [hrun] at h
          cases h
          exact ⟨log, rfl, rfl⟩
      have hrest : (loadLines plainPython 1 (splitLines content) {}).map
          (·, (none : Option (List LogRecord))) = .ok (log, none) := by
        rw [loadLines_ofJson hlines]
        rfl
      rcases hload : Json.load content with _ | value
      · rw [plainPython_refuses hload]
        exact (if_pos rfl).trans hrest
      · rw [plainPython_loads hload]
        cases value with
        | arr legacyData => exact absurd hload (hnot legacyData)
        | _ => simpa only [ofJson] using hrest

end Plain

/-! ## 4. Malformed input -/

/-- **Malformed input is rejected as the callers expect, exactly where** the decoder does not come
to an infinite number it reads as an integer, or to a command that is no object, before any other
fault. -/
theorem rejected_iff :
    (∀ data, Safe PyError.Caught (requestVoteFromDict py data) ↔
      NotFatal (requestVoteRulings py data)) ∧
    (∀ data, Safe PyError.Caught (appendEntriesFromDict py data) ↔
      NotFatal (appendEntriesRulings py data)) ∧
    (∀ data, Safe PyError.Caught (installSnapshotFromDict py data) ↔
      NotFatal (installSnapshotRulings py data)) ∧
    (∀ data, Safe PyError.Caught (timeoutNowFromDict py data) ↔
      NotFatal (timeoutNowRulings py data)) ∧
    (∀ data, Safe PyError.Caught (logEntryFromDict py data) ↔
      NotFatal (logEntryRulings py data)) ∧
    (∀ payload, ((requestVoteRoute py payload).Answered ↔
        NotFatal (requestVoteRulings py (.obj payload))) ∧
      ((appendEntriesRoute py payload).Answered ↔
        NotFatal (appendEntriesRulings py (.obj payload))) ∧
      ((installSnapshotRoute py payload).Answered ↔
        NotFatal (installSnapshotRulings py (.obj payload))) ∧
      ((timeoutNowRoute py payload).Answered ↔
        NotFatal (timeoutNowRulings py (.obj payload)))) ∧
    ∀ content, Safe LoadError.Expected (loadLog py content) ↔ HarmlessFile py content := by
  refine ⟨fun data => (requestVoteFromDict_judged py data).safe_iff,
    fun data => (appendEntriesFromDict_judged py data).safe_iff,
    fun data => (installSnapshotFromDict_judged py data).safe_iff,
    fun data => (timeoutNowFromDict_judged py data).safe_iff,
    fun data => (logEntryFromDict_judged py data).safe_iff, fun payload => ⟨?_, ?_, ?_, ?_⟩,
    loadLog_safe py⟩
  · exact (route_answered _ _).trans (requestVoteFromDict_judged py _).safe_iff
  · exact (route_answered _ _).trans (appendEntriesFromDict_judged py _).safe_iff
  · exact (route_answered _ _).trans (installSnapshotFromDict_judged py _).safe_iff
  · exact (route_answered _ _).trans (timeoutNowFromDict_judged py _).safe_iff

/-- `{"index":1,"term":1,"command":[]}`. -/
def listCommand : Json := .obj [("index", .int 1), ("term", .int 1), ("command", .arr [])]

/-- `{"type":"append","entry":{"index":1,"term":1,"command":[]}}`. -/
def listCommandRecord : List (String × Json) := [("type", .str "append"), ("entry", listCommand)]

/-- A request with an infinite term. -/
def infiniteTerm : List (String × PyJson) := [("term", .float (.infinity false)),
  ("leader_id", .str "a"), ("prev_log_index", .int 0), ("prev_log_term", .int 0),
  ("entries", .arr []), ("leader_commit", .int 0)]

/-- **Malformed input escapes** a decoder, a route and `load_log`. -/
theorem malformed_escapes :
    (¬ ∀ data, Safe PyError.Caught (logEntryFromDict plainPython data)) ∧
    (¬ ∀ payload, (appendEntriesRoute plainPython payload).Answered) ∧
    ¬ ∀ content, Safe LoadError.Expected (loadLog plainPython content) := by
  refine ⟨fun hall => ?_, fun hall => hall infiniteTerm, fun hall => ?_⟩
  · exact hall (ofJson listCommand) .attributeError rfl
  · have hload : plainPython.loads (Json.dump Json.compact (.obj listCommandRecord)) =
        .ok (ofJson (.obj listCommandRecord)) := by
      simp only [plainPython, Json.load_dump]
    have hwhole := Json.whole_piece Json.compact listCommandRecord
    have hsafe := (loadLog_safe _ _).mp (hall (Json.dump Json.compact (.obj listCommandRecord)))
    unfold HarmlessFile at hsafe
    rw [Json.blankLine_torn hwhole, hload] at hsafe
    have hline := hsafe.resolve_left Bool.false_ne_true 0 _
      (by rw [Json.splitLines_torn hwhole]; rfl) (.nil _ _)
    rw [lineRulings, if_neg (by rw [Json.blankLine_torn hwhole]; exact Bool.false_ne_true),
      hload] at hline
    exact hline rfl

end PyRaftKv
