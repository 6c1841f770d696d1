/-
# `StorageEngine.create_snapshot` at every crash point

`create_snapshot` replaces the snapshot file and then truncates the log.  In between, the log's
records are already in the snapshot, and recovery replays them on top of it.  Single records do
not commute, but a whole list of them, replayed on its own result, changes nothing.

So a crash does no harm if the log has for every key what the dictionary has, and only then
(`snapshot_crash_safe_iff`).  Concurrent requests can leave the dictionary with an older value than
the log, and a crash before the truncation then brings the log's value back
(`snapshot_crash_restores_other`).
-/
import PyRaftKv.Guarantees.Engine

namespace PyRaftKv

open Formats

/-! ## 1. Engines and crash points -/

/-- What is done with an engine: a step of a request, or `create_snapshot` as a whole. -/
inductive EngineEvent
  | request (s : RequestStep)
  | createSnapshot

namespace EngineApp

def handle (a : EngineApp) : EngineEvent → Option EngineApp
  | .request s => a.step s
  | .createSnapshot => some { a with engine := a.engine.createSnapshot }

/-- The condition: requests for a key change the dictionary in the order of their records, and a
snapshot is made when no request is under way. -/
def Orderly (a : EngineApp) : EngineEvent → Prop
  | .request s => a.InOrder s
  | .createSnapshot => a.Idle

end EngineApp

/-- The engines there are: opened on a snapshot and a log of whole records, and then used, by any
number of requests at once, in events that all meet the condition `P`.  A crash between two whole
records leaves files on which an engine can be opened again. -/
inductive EngineReached (P : EngineApp → EngineEvent → Prop) : EngineApp → Prop
  | opened {ws : List EngineWrite} {snapshot : Option Dict} {e : StorageEngine}
      (h : StorageEngine.init ⟨EngineFiles.logOf ws, snapshot⟩ = .ok e) :
      EngineReached P { engine := e }
  | event {a a' : EngineApp} {event : EngineEvent} (hreached : EngineReached P a) (hp : P a event)
      (h : a.handle event = some a') : EngineReached P a'

/-- Where a crash can stop `create_snapshot`. -/
inductive SnapshotPoint
  /-- The temporary file may be there, in part or as a whole. -/
  | beforeReplace
  | beforeTruncate
  | afterTruncate
deriving DecidableEq

namespace StorageEngine

/-- The files that the crash leaves. -/
def crashedAt (e : StorageEngine) : SnapshotPoint → EngineFiles
  | .beforeReplace => e.files
  | .beforeTruncate => e.saveSnapshot
  | .afterTruncate => e.createSnapshot.files

/-- **A crash in `create_snapshot` does no harm**: wherever it comes, an engine opened on what is
left has the dictionary that was in memory when the call began. -/
def SnapshotSafe (e : StorageEngine) : Prop :=
  ∀ p : SnapshotPoint, init (e.crashedAt p) = .ok ⟨e.crashedAt p, e.store⟩

/-- Under every key the dictionary has what the key's last record in the log says or, where the log
has none, what the snapshot file has. -/
def UpToDate (e : StorageEngine) : Prop :=
  ∃ ws, e.files.wal = EngineFiles.logOf ws ∧
    ∀ key, e.store.get key = (lastResult ws key).getD (e.files.base.get key)

/-! ## 2. What the files hold -/

/-- The log holds whole records, which on top of the snapshot make the dictionary in memory. -/
structure Mirrored (e : StorageEngine) (ws : List EngineWrite) : Prop where
  wal : e.files.wal = EngineFiles.logOf ws
  store : ws.foldl EngineWrite.run e.files.base = e.store

theorem upToDate_iff {e : StorageEngine} : e.UpToDate ↔ ∃ ws, e.Mirrored ws := by
  constructor
  · rintro ⟨ws, hwal, hget⟩
    refine ⟨ws, hwal, KVStore.ext_get fun key => ?_⟩
    rw [get_foldl, hget]
  · rintro ⟨ws, hwal, hstore⟩
    refine ⟨ws, hwal, fun key => ?_⟩
    rw [← hstore, get_foldl]

namespace Mirrored

variable {e : StorageEngine} {ws : List EngineWrite}

theorem createSnapshot : e.createSnapshot.Mirrored [] := ⟨rfl, rfl⟩

/-- The snapshot already has what the log holds. -/
theorem saveSnapshot (h : e.Mirrored ws) :
    (⟨e.saveSnapshot, e.store⟩ : StorageEngine).Mirrored ws := by
  refine ⟨h.wal, ?_⟩
  have hidem := foldl_run_idem ws e.files.base
  rw [h.store] at hidem
  exact hidem

theorem init (h : e.Mirrored ws) : StorageEngine.init e.files = .ok e := by
  have hrecover := (EngineFiles.Holds.whole h.wal).recover
  rw [h.store] at hrecover
  unfold StorageEngine.init
  rw [hrecover]
  rfl

theorem snapshotSafe (h : e.Mirrored ws) : e.SnapshotSafe := by
  intro p
  cases p with
  | beforeReplace => exact h.init
  | beforeTruncate => exact h.saveSnapshot.init
  | afterTruncate => exact createSnapshot.init

end Mirrored

/-- An engine that opens with the dictionary in memory finds it in its files. -/
theorem mirrored_of_init {e : StorageEngine} {ws : List EngineWrite}
    (hwal : e.files.wal = EngineFiles.logOf ws) (h : init e.files = .ok e) : e.Mirrored ws := by
  have hrecover := (EngineFiles.Holds.whole hwal).recover
  unfold init at h
  rw [hrecover] at h
  exact ⟨hwal, congrArg StorageEngine.store (Except.ok.inj h)⟩

end StorageEngine

namespace EngineReached

variable {a : EngineApp}

/-- Whatever the requests do, the records in the log are whole. -/
theorem logOf {P : EngineApp → EngineEvent → Prop} (h : EngineReached P a) :
    ∃ ws, a.engine.files.wal = EngineFiles.logOf ws := by
  induction h with
  | @opened ws snapshot e h =>
    refine ⟨ws, ?_⟩
    unfold StorageEngine.init at h
    rw [(EngineFiles.Holds.whole (f := ⟨EngineFiles.logOf ws, snapshot⟩) rfl).recover] at h
    cases h
    rfl
  | @event a a' event _ _ hstep ih =>
    obtain ⟨ws, hwal⟩ := ih
    cases event with
    | createSnapshot =>
      cases hstep
      exact ⟨[], rfl⟩
    | request s =>
      rcases EngineApp.step_files hstep with hsame | ⟨w, happended⟩
      · exact ⟨ws, hsame ▸ hwal⟩
      · exact ⟨ws ++ [w], by rw [happended, EngineFiles.append_logOf hwal]⟩

theorem sound (h : EngineReached EngineApp.Orderly a) : ∃ ws, AppSound a ws := by
  induction h with
  | opened h => exact AppSound.opened h
  | @event a a' event _ hp hstep ih =>
    obtain ⟨ws, hs⟩ := ih
    cases event with
    | request s => exact hs.step hp hstep
    | createSnapshot =>
      cases hstep
      refine ⟨[], rfl, fun _ _ => rfl, fun j w p hj => ?_, fun j w p hj => ?_⟩
      · cases (hp j).symm.trans hj
      · cases (hp j).symm.trans hj

end EngineReached

/-! ## 3. Every crash point -/

/-- Replaying the records of `ops`. -/
def replayOps (ops : List EngineWrite) (s : KVStore) : Except StorageError KVStore :=
  (ops.map fun w => w.entry.toJson).foldlM KVStore.apply s

/-- **Replaying a list of records on its own result changes nothing.** -/
theorem replayOps_idem (ops : List EngineWrite) (s : KVStore) :
    (replayOps ops s >>= replayOps ops) = replayOps ops s := by
  have hfirst : replayOps ops s = .ok (ops.foldl EngineWrite.run s) := foldlM_apply ops s
  have hagain : replayOps ops (ops.foldl EngineWrite.run s) =
      .ok (ops.foldl EngineWrite.run (ops.foldl EngineWrite.run s)) := foldlM_apply ops _
  rw [foldl_run_idem] at hagain
  rw [hfirst]
  exact hagain

/-- **`create_snapshot` is safe at every crash point if and only if the dictionary is up to date**,
and it is so wherever no request is under way after events that were all orderly. -/
theorem snapshot_crash_safe_iff {a : EngineApp} (h : EngineReached (fun _ _ => True) a) :
    (a.engine.SnapshotSafe ↔ a.engine.UpToDate) ∧
    (EngineReached EngineApp.Orderly a → a.Idle → a.engine.UpToDate) ∧
    ∀ (ops : List EngineWrite) (s : KVStore),
      (∃ t, replayOps ops s = .ok t) ∧ (replayOps ops s >>= replayOps ops) = replayOps ops s := by
  refine ⟨⟨fun hsafe => ?_, fun hup => ?_⟩, fun horderly hidle => ?_,
    fun ops s => ⟨⟨_, foldlM_apply ops s⟩, replayOps_idem ops s⟩⟩
  · obtain ⟨ws, hwal⟩ := h.logOf
    exact StorageEngine.upToDate_iff.mpr
      ⟨ws, StorageEngine.mirrored_of_init hwal (hsafe .beforeReplace)⟩
  · obtain ⟨ws, hm⟩ := StorageEngine.upToDate_iff.mp hup
    exact hm.snapshotSafe
  · obtain ⟨ws, hs⟩ := horderly.sound
    exact ⟨ws, hs.wal, hs.rebuilt hidle⟩

/-- A run of requests is a run of events. -/
theorem EngineReached.of_appRuns {P : EngineApp → RequestStep → Prop}
    {Q : EngineApp → EngineEvent → Prop} (hPQ : ∀ a s, P a s → Q a (.request s)) {a : EngineApp}
    (h : AppRuns P a) : EngineReached Q a := by
  induction h with
  | start h => exact .opened h
  | step _ hs hstep ih => exact ih.event (hPQ _ _ hs) hstep

theorem snapshot_crash_safe_twoPuts : afterTwoPuts.engine.SnapshotSafe := by
  have h := snapshot_crash_safe_iff (a := afterTwoPuts)
    (.of_appRuns (fun _ _ _ => trivial) afterTwoPuts_runs)
  exact h.1.mpr (h.2.1 (.of_appRuns (fun _ _ => id) afterTwoPuts_runs) afterTwoPuts_idle)

/-- **After crossed requests a crash brings the other value back.** -/
theorem snapshot_crash_restores_other : ¬ ∀ {a : EngineApp}, EngineReached (fun _ _ => True) a →
    a.Idle → a.engine.SnapshotSafe := by
  intro hall
  have hreached : EngineReached (fun _ _ => True) crossedApp :=
    .of_appRuns (fun _ _ => id) (AppRuns.of_runs crossedPuts emptyApp_runs rfl)
  have hsafe := hall hreached crossedApp_idle .beforeTruncate
  have hmemory : crossedApp.engine.store.get "x" = some "1" := by decide +kernel
  have hdisk : (StorageEngine.init (crossedApp.engine.crashedAt .beforeTruncate)).toOption.map
      (·.store.get "x") = some (some "2") := by
    decide +kernel
  rw [hsafe] at hdisk
  exact absurd (hmemory.symm.trans (Option.some.inj hdisk)) (by decide)

end PyRaftKv
