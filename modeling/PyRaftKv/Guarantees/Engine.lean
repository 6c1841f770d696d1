/-
# The standalone engine: what a restart reads back

Two things can come between an engine's dictionary and what it reads back after a restart.

* A crash in the middle of an append leaves a piece of a record at the end of the log, and
  recovery forgives it.  `engine_durable`: as long as a record is only appended to a log that ends
  with a newline, no acknowledged write is ever lost.  `engine_loses_write`: the engine does append
  to the forgiven piece, and then loses the record it appended.
* Requests run concurrently, and each appends its record and changes the dictionary in two steps.
  `memory_rebuilt`: as long as the requests for a key change the dictionary in the order of their
  records, an idle engine's dictionary is the one that recovery would build.
  `memory_not_rebuilt`: nothing in the engine keeps them in this order.
-/
import PyRaftKv.Storage.Engine

namespace PyRaftKv

open Formats

/-! ## 1. Runs of an engine with crashes -/

/-- The engine's process: stopped, with the files it left, or running. -/
inductive EngineHost
  | down (files : EngineFiles)
  | up (engine : StorageEngine)

inductive EngineStep
  | open
  | call (w : EngineWrite)
  | createSnapshot
  | crash
  /-- A crash in a call, with the first `kept` characters of its record in the log. -/
  | crashInCall (w : EngineWrite) (kept : Nat)
  /-- A crash in `create_snapshot`, after the snapshot has been saved. -/
  | crashInSnapshot

/-- A call that has returned, or one that a crash interrupted. -/
inductive LoggedWrite
  | acknowledged (w : EngineWrite)
  | inFlight (w : EngineWrite)

namespace EngineHost

def files : EngineHost → EngineFiles
  | .down f => f
  | .up e => e.files

/-- Whether a call appends a record. -/
def appends : EngineHost → EngineWrite → Bool
  | .down _, _ => false
  | .up e, w => w.appends e.store

/-- The files after a crash in a call. -/
def crashedFiles (e : StorageEngine) (w : EngineWrite) (kept : Nat) : EngineFiles :=
  if w.appends e.store then e.files.cut w kept else e.files

/-- One step.  An engine that raises when it is opened does not start. -/
def step : EngineHost → EngineStep → Option EngineHost
  | .down f, .open => (StorageEngine.init f).toOption.map .up
  | .up e, .call w => some (.up (w.call e))
  | .up e, .createSnapshot => some (.up e.createSnapshot)
  | .up e, .crash => some (.down e.files)
  | .up e, .crashInCall w kept => some (.down (crashedFiles e w kept))
  | .up e, .crashInSnapshot => some (.down e.saveSnapshot)
  | _, _ => none

end EngineHost

namespace EngineStep

/-- What the step adds to the history of calls. -/
def logged : EngineStep → List LoggedWrite
  | .call w => [.acknowledged w]
  | .crashInCall w _ => [.inFlight w]
  | _ => []

/-- The condition: a record is only appended to a log that is empty or ends with a newline. -/
def AppendsWhole (h : EngineHost) : EngineStep → Prop
  | .call w => h.appends w = true → Terminated h.files.wal
  | .crashInCall w _ => h.appends w = true → Terminated h.files.wal
  | _ => True

end EngineStep

/-- The runs, from a new engine's empty files, whose steps all meet the condition `P`; and the calls
made in them. -/
inductive EngineRuns (P : EngineHost → EngineStep → Prop) : EngineHost → List LoggedWrite → Prop
  | start : EngineRuns P (.down {}) []
  | step {h h' : EngineHost} {s : EngineStep} {log : List LoggedWrite} (hrun : EngineRuns P h log)
      (hs : P h s) (hstep : h.step s = some h') : EngineRuns P h' (log ++ s.logged)

/-- The writes that may have taken effect: those that were acknowledged, and any of the others. -/
def explanations : List LoggedWrite → List (List EngineWrite)
  | [] => [[]]
  | .acknowledged w :: log => (explanations log).map (w :: ·)
  | .inFlight w :: log => explanations log ++ (explanations log).map (w :: ·)

/-- What a list of writes makes of an empty dictionary. -/
def replayed (ws : List EngineWrite) : KVStore := ws.foldl EngineWrite.run {}

/-- **The engine has lost no acknowledged write**: it opens without an error, and its dictionary
holds the acknowledged writes, in their order, and perhaps some that a crash interrupted. -/
def NoWriteLost (h : EngineHost) (log : List LoggedWrite) : Prop :=
  ∃ ws ∈ explanations log, h.files.recover = .ok (replayed ws) ∧
    ∀ e, h = .up e → e.store = replayed ws

/-! ## 2. Acknowledged writes survive -/

theorem explanations_append {a b : List LoggedWrite} {ws vs : List EngineWrite}
    (ha : ws ∈ explanations a) (hb : vs ∈ explanations b) : ws ++ vs ∈ explanations (a ++ b) := by
  induction a generalizing ws with
  | nil =>
    obtain rfl := List.mem_singleton.mp ha
    exact hb
  | cons x a ih =>
    cases x with
    | acknowledged w =>
      obtain ⟨us, hus, rfl⟩ := List.mem_map.mp ha
      exact List.mem_map.mpr ⟨us ++ vs, ih hus, rfl⟩
    | inFlight w =>
      rcases List.mem_append.mp ha with ha | ha
      · exact List.mem_append_left _ (ih ha)
      · obtain ⟨us, hus, rfl⟩ := List.mem_map.mp ha
        exact List.mem_append_right _ (List.mem_map.mpr ⟨us ++ vs, ih hus, rfl⟩)

/-- The last write under a key, if there is one. -/
def lastResult (ws : List EngineWrite) (k : String) : Option (Option String) :=
  (ws.reverse.find? fun w => w.key == k).map (·.result)

theorem get_foldl (ws : List EngineWrite) (s : KVStore) (k : String) :
    (ws.foldl EngineWrite.run s).get k = (lastResult ws k).getD (s.get k) := by
  induction ws using List.reverseRecOn with
  | nil => rfl
  | append_singleton ws w ih =>
    rw [List.foldl_append, List.foldl_cons, List.foldl_nil, KVStore.get_run, ih]
    unfold lastResult
    rw [List.reverse_append, List.reverse_singleton, List.singleton_append, List.find?_cons]
    by_cases h : k = w.key
    · simp [h]
    · have hne : (w.key == k) = false := by simpa using Ne.symm h
      simp [h, hne]

/-- Replaying a log on top of its own result changes nothing. -/
theorem foldl_run_idem (ws : List EngineWrite) (s : KVStore) :
    ws.foldl EngineWrite.run (ws.foldl EngineWrite.run s) = ws.foldl EngineWrite.run s := by
  apply KVStore.ext_get
  intro k
  rw [get_foldl, get_foldl]
  cases lastResult ws k <;> rfl

/-- The invariant: the files hold writes that make, on top of the snapshot, what an explanation of
the calls makes. -/
structure EngineSound (h : EngineHost) (log : List LoggedWrite) : Prop where
  explained : ∃ ws ∈ explanations log, ∃ rs, h.files.Holds rs ∧
    rs.foldl EngineWrite.run h.files.base = replayed ws ∧ ∀ e, h = .up e → e.store = replayed ws

theorem EngineSound.durable {h : EngineHost} {log : List LoggedWrite} (hs : EngineSound h log) :
    NoWriteLost h log := by
  obtain ⟨ws, hws, rs, hholds, hfold, hup⟩ := hs.explained
  exact ⟨ws, hws, by rw [hholds.recover, hfold], hup⟩

theorem replayed_snoc (ws : List EngineWrite) (w : EngineWrite) :
    replayed (ws ++ [w]) = w.run (replayed ws) := by
  rw [replayed, List.foldl_append]
  rfl

theorem run_of_not_appends {s : KVStore} {w : EngineWrite} (h : w.appends s = false) :
    w.run s = s := by
  cases w with
  | put key value => cases h
  | delete key =>
    apply KVStore.ext_get
    intro k
    rw [KVStore.get_run]
    split
    · rename_i hk
      subst hk
      exact (Option.not_isSome_iff_eq_none.mp (Bool.eq_false_iff.mp h)).symm
    · rfl

/-- A call that returns. -/
theorem EngineSound.call {e : StorageEngine} {log : List LoggedWrite}
    (hs : EngineSound (.up e) log) {w : EngineWrite}
    (hw : w.appends e.store = true → Terminated e.files.wal) :
    EngineSound (.up (w.call e)) (log ++ [.acknowledged w]) := by
  obtain ⟨ws, hws, rs, hholds, hfold, hup⟩ := hs.explained
  have hstore := hup e rfl
  refine ⟨ws ++ [w], explanations_append hws (List.mem_singleton_self _), ?_⟩
  rw [EngineWrite.call_eq, replayed_snoc, ← hstore]
  by_cases happ : w.appends e.store = true
  · refine ⟨rs ++ [w], ?_, ?_, ?_⟩
    · rw [if_pos happ]
      exact hholds.append (hw happ) w
    · rw [if_pos happ, List.foldl_append]
      exact congrArg (EngineWrite.run · w) (hfold.trans hstore.symm)
    · rintro e' ⟨⟩
      rfl
  · refine ⟨rs, ?_, ?_, ?_⟩
    · rw [if_neg happ]
      exact hholds
    · rw [if_neg happ, run_of_not_appends (Bool.not_eq_true _ ▸ happ)]
      exact hfold.trans hstore.symm
    · rintro e' ⟨⟩
      rfl

/-- A call that a crash interrupts. -/
theorem EngineSound.crashInCall {e : StorageEngine} {log : List LoggedWrite}
    (hs : EngineSound (.up e) log) {w : EngineWrite} {kept : Nat}
    (hw : w.appends e.store = true → Terminated e.files.wal) :
    EngineSound (.down (EngineHost.crashedFiles e w kept)) (log ++ [.inFlight w]) := by
  obtain ⟨ws, hws, rs, hholds, hfold, -⟩ := hs.explained
  have hlost : ws ++ [] ∈ explanations (log ++ [.inFlight w]) :=
    explanations_append hws (by simp [explanations])
  have hlanded : ws ++ [w] ∈ explanations (log ++ [.inFlight w]) :=
    explanations_append hws (by simp [explanations])
  rw [List.append_nil] at hlost
  unfold EngineHost.crashedFiles
  by_cases happ : w.appends e.store = true
  · rw [if_pos happ]
    rcases hholds.cut (hw happ) w kept with h | h
    · exact ⟨ws, hlost, rs, h, hfold, fun e' he' => nomatch he'⟩
    · refine ⟨ws ++ [w], hlanded, rs ++ [w], h, ?_, fun e' he' => nomatch he'⟩
      rw [replayed_snoc, List.foldl_append]
      exact congrArg (EngineWrite.run · w) hfold
  · rw [if_neg happ]
    exact ⟨ws, hlost, rs, hholds, hfold, fun e' he' => nomatch he'⟩

theorem EngineSound.step {h h' : EngineHost} {s : EngineStep} {log : List LoggedWrite}
    (hs : EngineSound h log) (hcond : s.AppendsWhole h) (hstep : h.step s = some h') :
    EngineSound h' (log ++ s.logged) := by
  unfold EngineHost.step at hstep
  split at hstep
  · rename_i f
    obtain ⟨ws, hws, rs, hholds, hfold, -⟩ := hs.explained
    have hinit : StorageEngine.init f = .ok ⟨f, replayed ws⟩ := by
      have hrecover : f.recover = .ok (replayed ws) := hholds.recover.trans (congrArg _ hfold)
      unfold StorageEngine.init
      rw [hrecover]
      rfl
    rw [hinit] at hstep
    cases hstep
    refine ⟨ws, by simpa [EngineStep.logged] using hws, rs, hholds, hfold, ?_⟩
    rintro e' ⟨⟩
    rfl
  · cases hstep
    exact hs.call hcond
  · rename_i e
    cases hstep
    obtain ⟨ws, hws, rs, hholds, hfold, hup⟩ := hs.explained
    refine ⟨ws, by simpa [EngineStep.logged] using hws, [], .whole rfl, hup e rfl, ?_⟩
    rintro e' ⟨⟩
    exact hup e rfl
  · rename_i e
    cases hstep
    obtain ⟨ws, hws, rs, hholds, hfold, hup⟩ := hs.explained
    exact ⟨ws, by simpa [EngineStep.logged] using hws, rs, hholds, hfold,
      fun e' he' => nomatch he'⟩
  · cases hstep
    exact hs.crashInCall hcond
  · rename_i e
    cases hstep
    obtain ⟨ws, hws, rs, hholds, hfold, hup⟩ := hs.explained
    have hsaved : e.saveSnapshot.Holds rs := by
      cases hholds with
      | whole h => exact .whole h
      | torn h hpiece hne => exact .torn h hpiece hne
      | unended h => exact .unended h
    refine ⟨ws, by simpa [EngineStep.logged] using hws, rs, hsaved, ?_,
      fun e' he' => nomatch he'⟩
    have hbase : e.saveSnapshot.base = replayed ws := hup e rfl
    have hidem := foldl_run_idem rs e.files.base
    rw [show e.files.base = (EngineHost.up e).files.base from rfl, hfold] at hidem
    exact (congrArg (rs.foldl EngineWrite.run ·) hbase).trans hidem
  · cases hstep

/-- **No acknowledged write is lost** in a run that only appends to logs that end with a newline. -/
theorem engine_durable {h : EngineHost} {log : List LoggedWrite}
    (hrun : EngineRuns (fun h s => s.AppendsWhole h) h log) : NoWriteLost h log := by
  suffices hsound : EngineSound h log from hsound.durable
  induction hrun with
  | start =>
    exact ⟨[], List.mem_singleton_self _, [], .whole rfl, rfl, fun e he => nomatch he⟩
  | step hrun hs hstep ih => exact ih.step hs hstep

instance (h : EngineHost) (s : EngineStep) : Decidable (s.AppendsWhole h) :=
  match s with
  | .call w => inferInstanceAs (Decidable (h.appends w = true → Terminated h.files.wal))
  | .crashInCall w _ => inferInstanceAs (Decidable (h.appends w = true → Terminated h.files.wal))
  | .open => isTrue trivial
  | .createSnapshot => isTrue trivial
  | .crash => isTrue trivial
  | .crashInSnapshot => isTrue trivial

/-- A run given by its steps, which ends where a step does not meet the condition. -/
def EngineHost.runs (P : EngineHost → EngineStep → Prop) [∀ h s, Decidable (P h s)]
    (h : EngineHost) (ss : List EngineStep) : Option EngineHost :=
  ss.foldlM (fun h s => if P h s then h.step s else none) h

theorem EngineRuns.of_runs {P : EngineHost → EngineStep → Prop} [∀ h s, Decidable (P h s)]
    (ss : List EngineStep) : ∀ {h h' : EngineHost} {log : List LoggedWrite}, EngineRuns P h log →
      h.runs P ss = some h' → EngineRuns P h' (log ++ ss.flatMap EngineStep.logged) := by
  induction ss with
  | nil =>
    intro h h' log hrun hruns
    cases hruns
    simpa using hrun
  | cons s ss ih =>
    intro h h' log hrun hruns
    unfold EngineHost.runs at hruns
    rw [List.foldlM_cons] at hruns
    obtain ⟨h₁, hstep, hrest⟩ := Option.bind_eq_some_iff.mp hruns
    split at hstep
    · rename_i hs
      rw [List.flatMap_cons, ← List.append_assoc]
      exact ih (hrun.step hs hstep) hrest
    · cases hstep

/-- A write, a crash that leaves five characters of another one, and a restart. -/
def tornWrite : List EngineStep := [
  .open,
  .call (.put "a" "1"),
  .crashInCall (.put "b" "2") 5,
  .open]

theorem tornWrite_runs :
    ((EngineHost.down {}).runs (fun h s => s.AppendsWhole h) tornWrite).isSome = true := by
  decide +kernel

theorem engine_durable_tornWrite :
    NoWriteLost (((EngineHost.down {}).runs _ tornWrite).get tornWrite_runs)
      [.acknowledged (.put "a" "1"), .inFlight (.put "b" "2")] :=
  engine_durable (EngineRuns.of_runs tornWrite .start (Option.some_get tornWrite_runs).symm)

/-- The engine goes on with another write. -/
def lostWriteSteps : List EngineStep := tornWrite ++ [.call (.put "c" "3"), .crash]

theorem lostWriteSteps_runs :
    ((EngineHost.down {}).runs (fun _ _ => True) lostWriteSteps).isSome = true := by
  decide +kernel

/-- **The engine appends to a torn record**, and the record it appends is lost with it. -/
theorem engine_loses_write : ¬ ∀ {h : EngineHost} {log : List LoggedWrite},
    EngineRuns (fun _ _ => True) h log → NoWriteLost h log := by
  intro hall
  obtain ⟨ws, hws, hrecover, -⟩ := hall (EngineRuns.of_runs lostWriteSteps .start
    (Option.some_get lostWriteSteps_runs).symm)
  have hkept : ∀ ws ∈ explanations ([] ++ lostWriteSteps.flatMap EngineStep.logged),
      (replayed ws).get "c" = some "3" := by decide +kernel
  have hlost : (((EngineHost.down {}).runs (fun _ _ => True) lostWriteSteps).get
      lostWriteSteps_runs).files.recover.toOption.map (·.get "c") = some none := by
    decide +kernel
  rw [hrecover] at hlost
  exact absurd ((hkept ws hws).symm.trans (Option.some.inj hlost)) (by decide)

/-! ## 3. Concurrent requests -/

/-- How far a request has come: a delete has found its key, or the record has been appended, to a
log of the given length. -/
inductive RequestStage
  | checked
  | logged (position : Nat)
deriving DecidableEq

/-- The application: one engine, and the requests that are under way. -/
structure EngineApp where
  engine : StorageEngine
  requests : Nat → Option (EngineWrite × RequestStage) := fun _ => none

inductive RequestStep
  | begin (i : Nat) (w : EngineWrite)
  | append (i : Nat)
  | store (i : Nat)

namespace EngineApp

def setRequest (a : EngineApp) (i : Nat) (r : Option (EngineWrite × RequestStage)) : EngineApp :=
  { a with requests := Function.update a.requests i r }

/-- The request `i` appends its record. -/
def appendRecord (a : EngineApp) (i : Nat) (w : EngineWrite) : EngineApp :=
  { engine := { a.engine with files := a.engine.files.append w.entry }
    requests := Function.update a.requests i (some (w, .logged a.engine.files.wal.length)) }

/-- The request `i` changes the dictionary and returns. -/
def storeWrite (a : EngineApp) (i : Nat) (w : EngineWrite) : EngineApp :=
  { engine := { a.engine with store := w.run a.engine.store }
    requests := Function.update a.requests i none }

/-- One step of one request.  A put begins with its record, a delete with the question whether its
key is there. -/
def step (a : EngineApp) : RequestStep → Option EngineApp
  | .begin i w =>
    match a.requests i, w with
    | some _, _ => none
    | none, .put key value => some (a.appendRecord i (.put key value))
    | none, .delete key =>
      match a.engine.store.get key with
      | none => some a
      | some _ => some (a.setRequest i (some (.delete key, .checked)))
  | .append i =>
    match a.requests i with
    | some (w, .checked) => some (a.appendRecord i w)
    | _ => none
  | .store i =>
    match a.requests i with
    | some (w, .logged _) => some (a.storeWrite i w)
    | _ => none

/-- A step of a request leaves the files as they are, or appends a record. -/
theorem step_files {a a' : EngineApp} {s : RequestStep} (h : a.step s = some a') :
    a'.engine.files = a.engine.files ∨ ∃ w : EngineWrite, a'.engine.files =
      a.engine.files.append w.entry := by
  unfold step at h
  split at h
  · split at h
    · cases h
    · cases h
      exact .inr ⟨_, rfl⟩
    · split at h <;> cases h <;> exact .inl rfl
  · split at h <;> cases h
    exact .inr ⟨_, rfl⟩
  · split at h <;> cases h
    exact .inl rfl

/-- The request `j` has appended its record, for the write `w` at `position`, and has not changed
the dictionary yet. -/
def Pending (a : EngineApp) (j : Nat) (w : EngineWrite) (position : Nat) : Prop :=
  a.requests j = some (w, .logged position)

/-- The condition: a request changes the dictionary when no other one waits to do so whose record
for the same key stands before its own. -/
def InOrder (a : EngineApp) : RequestStep → Prop
  | .store i => ∀ {w : EngineWrite} {p : Nat}, a.Pending i w p →
      ∀ {j : Nat} {v : EngineWrite} {q : Nat}, a.Pending j v q → v.key = w.key → p ≤ q
  | _ => True

def Idle (a : EngineApp) : Prop := ∀ i, a.requests i = none

end EngineApp

/-- The runs whose steps all meet the condition `P`, of an engine opened on any snapshot and any log
of whole records. -/
inductive AppRuns (P : EngineApp → RequestStep → Prop) : EngineApp → Prop
  | start {ws : List EngineWrite} {snapshot : Option Dict} {e : StorageEngine}
      (h : StorageEngine.init ⟨EngineFiles.logOf ws, snapshot⟩ = .ok e) : AppRuns P { engine := e }
  | step {a a' : EngineApp} {s : RequestStep} (hrun : AppRuns P a) (hs : P a s)
      (hstep : a.step s = some a') : AppRuns P a'

/-- The invariant, with `r` for what recovery would build.  Under each key the dictionary has what
`r` has, until requests for the key are pending: then `r` has what the last one in the log says. -/
structure AppSound (a : EngineApp) (ws : List EngineWrite) : Prop where
  wal : a.engine.files.wal = EngineFiles.logOf ws
  settled : ∀ k, (∀ j w p, a.Pending j w p → w.key ≠ k) →
    (ws.foldl EngineWrite.run a.engine.files.base).get k = a.engine.store.get k
  pending : ∀ j w p, a.Pending j w p →
    (∀ j' w' p', a.Pending j' w' p' → w'.key = w.key → p' ≤ p) →
      (ws.foldl EngineWrite.run a.engine.files.base).get w.key = w.result
  position : ∀ j w p, a.Pending j w p → p < a.engine.files.wal.length

namespace AppSound

variable {a : EngineApp} {ws : List EngineWrite}

theorem of_pending {r : Nat → Option (EngineWrite × RequestStage)} (hs : AppSound a ws)
    (h : ∀ j w p, ({ a with requests := r } : EngineApp).Pending j w p ↔ a.Pending j w p) :
    AppSound { a with requests := r } ws where
  wal := hs.wal
  settled k hk := hs.settled k fun j w p hp => hk j w p ((h j w p).mpr hp)
  pending j w p hp hmax := hs.pending j w p ((h j w p).mp hp) fun j' w' p' hp' hkey =>
    hmax j' w' p' ((h j' w' p').mpr hp') hkey
  position j w p hp := hs.position j w p ((h j w p).mp hp)

/-- A record is appended: it is the last one under its key. -/
theorem appendRecord (hs : AppSound a ws) {i : Nat} (hi : ∀ w p, ¬ a.Pending i w p)
    (w : EngineWrite) : AppSound (a.appendRecord i w) (ws ++ [w]) := by
  have hpending : ∀ {j v p}, (a.appendRecord i w).Pending j v p →
      (j = i ∧ v = w ∧ p = a.engine.files.wal.length) ∨ (j ≠ i ∧ a.Pending j v p) := by
    intro j v p h
    by_cases hj : j = i
    · subst hj
      have h' : some (w, RequestStage.logged a.engine.files.wal.length) = some (v, .logged p) := by
        rw [← h]
        exact (Function.update_self j _ a.requests).symm
      cases h'
      exact Or.inl ⟨rfl, rfl, rfl⟩
    · exact Or.inr ⟨hj, (Function.update_of_ne hj _ _).symm.trans h⟩
  have hself : (a.appendRecord i w).Pending i w a.engine.files.wal.length :=
    Function.update_self ..
  have hother : ∀ {j v p}, a.Pending j v p → (a.appendRecord i w).Pending j v p := by
    intro j v p h
    have hj : j ≠ i := by
      rintro rfl
      exact hi v p h
    exact (Function.update_of_ne hj _ _).trans h
  have hget : ∀ k, ((ws ++ [w]).foldl EngineWrite.run a.engine.files.base).get k =
      if k = w.key then w.result else (ws.foldl EngineWrite.run a.engine.files.base).get k := by
    intro k
    rw [List.foldl_append]
    exact KVStore.get_run _ w k
  refine ⟨EngineFiles.append_logOf hs.wal w, ?_, ?_, ?_⟩
  · intro k hk
    refine (hget k).trans ?_
    rw [if_neg (hk i w _ hself).symm]
    exact hs.settled k fun j v p hp => hk j v p (hother hp)
  · intro j v p hp hmax
    refine (hget v.key).trans ?_
    rcases hpending hp with ⟨-, rfl, -⟩ | ⟨-, hp'⟩
    · rw [if_pos rfl]
    · have hlt := hs.position j v p hp'
      have hkey : v.key ≠ w.key := by
        intro hkey
        have := hmax i w _ hself hkey.symm
        omega
      rw [if_neg hkey]
      exact hs.pending j v p hp' fun j' v' p' hp'' hkey' => hmax j' v' p' (hother hp'') hkey'
  · intro j v p hp
    have hlen : a.engine.files.wal.length < (a.appendRecord i w).engine.files.wal.length := by
      simp [EngineApp.appendRecord, EngineFiles.append, Wal.append]
    rcases hpending hp with ⟨-, -, rfl⟩ | ⟨-, hp'⟩
    · exact hlen
    · exact Nat.lt_trans (hs.position j v p hp') hlen

/-- The first of the pending requests for its key changes the dictionary. -/
theorem storeWrite (hs : AppSound a ws) {i : Nat} {w : EngineWrite} {p : Nat}
    (hi : a.Pending i w p) (hfirst : ∀ {j v q}, a.Pending j v q → v.key = w.key → p ≤ q) :
    AppSound (a.storeWrite i w) ws := by
  have hpending : ∀ {j v q}, (a.storeWrite i w).Pending j v q → j ≠ i ∧ a.Pending j v q := by
    intro j v q h
    have hj : j ≠ i := by
      rintro rfl
      have h' : (none : Option (EngineWrite × RequestStage)) = some (v, .logged q) := by
        rw [← h]
        exact (Function.update_self j none a.requests).symm
      cases h'
    exact ⟨hj, (Function.update_of_ne hj _ _).symm.trans h⟩
  have hother : ∀ {j v q}, a.Pending j v q → (a.storeWrite i w).Pending j v q ∨
      (j = i ∧ v = w ∧ q = p) := by
    intro j v q h
    by_cases hj : j = i
    · subst hj
      cases hi.symm.trans h
      exact Or.inr ⟨rfl, rfl, rfl⟩
    · exact Or.inl ((Function.update_of_ne hj _ _).trans h)
  refine ⟨hs.wal, ?_, ?_, fun j v q hq => hs.position j v q (hpending hq).2⟩
  · intro k hk
    refine Eq.trans ?_ (KVStore.get_run a.engine.store w k).symm
    by_cases hkey : k = w.key
    · subst hkey
      rw [if_pos rfl]
      refine hs.pending i w p hi fun j v q hq hv => ?_
      rcases hother hq with hq' | ⟨-, -, rfl⟩
      · exact absurd hv (hk j v q hq')
      · exact Nat.le_refl q
    · rw [if_neg hkey]
      refine hs.settled k fun j v q hq => ?_
      rcases hother hq with hq' | ⟨-, rfl, -⟩
      · exact hk j v q hq'
      · exact Ne.symm hkey
  · intro j v q hq hmax
    refine hs.pending j v q (hpending hq).2 fun j' v' q' hq' hv' => ?_
    rcases hother hq' with hq'' | ⟨-, rfl, rfl⟩
    · exact hmax j' v' q' hq'' hv'
    · exact hfirst (hpending hq).2 hv'.symm

theorem step (hs : AppSound a ws) {s : RequestStep} {a' : EngineApp} (hcond : a.InOrder s)
    (hstep : a.step s = some a') : ∃ ws', AppSound a' ws' := by
  unfold EngineApp.step at hstep
  split at hstep
  · rename_i i w
    split at hstep
    · cases hstep
    · rename_i hi
      cases hstep
      refine ⟨_, hs.appendRecord (fun w p h => ?_) _⟩
      cases hi.symm.trans h
    · rename_i key hi
      split at hstep
      · cases hstep
        exact ⟨ws, hs⟩
      · cases hstep
        refine ⟨ws, hs.of_pending fun j v q => ?_⟩
        unfold EngineApp.Pending
        by_cases hj : j = i
        · subst hj
          simp [hi]
        · simp [hj]
  · rename_i i
    split at hstep
    · rename_i w hi
      cases hstep
      refine ⟨_, hs.appendRecord (fun w p h => ?_) w⟩
      cases hi.symm.trans h
    · cases hstep
  · rename_i i
    split at hstep
    · rename_i w p hi
      cases hstep
      exact ⟨ws, hs.storeWrite hi fun hq hv => hcond hi hq hv⟩
    · cases hstep

theorem opened {ws : List EngineWrite} {snapshot : Option Dict} {e : StorageEngine}
    (h : StorageEngine.init ⟨EngineFiles.logOf ws, snapshot⟩ = .ok e) :
    ∃ ws, AppSound { engine := e } ws := by
  have hholds : EngineFiles.Holds ⟨EngineFiles.logOf ws, snapshot⟩ ws := .whole rfl
  unfold StorageEngine.init at h
  rw [hholds.recover] at h
  cases h
  exact ⟨ws, rfl, fun k _ => rfl, fun j w p hp => (nomatch hp), fun j w p hp => nomatch hp⟩

/-- Where no request is under way, the dictionary has what the log and the snapshot have. -/
theorem rebuilt (hs : AppSound a ws) (hidle : a.Idle) (k : String) :
    a.engine.store.get k = (lastResult ws k).getD (a.engine.files.base.get k) := by
  rw [← get_foldl]
  refine (hs.settled k fun j w p hp => ?_).symm
  cases (hidle j).symm.trans hp

end AppSound

/-- **An idle engine's dictionary is the one that recovery would build**, if the requests for a key
have changed it in the order of their records. -/
theorem memory_rebuilt {a : EngineApp} (hrun : AppRuns EngineApp.InOrder a) (hidle : a.Idle) :
    a.engine.files.recover = .ok a.engine.store := by
  suffices hsound : ∃ ws, AppSound a ws by
    obtain ⟨ws, hs⟩ := hsound
    have hholds : a.engine.files.Holds ws := .whole hs.wal
    rw [hholds.recover]
    exact congrArg _ (KVStore.ext_get fun k => (get_foldl ws _ k).trans (hs.rebuilt hidle k).symm)
  clear hidle
  induction hrun with
  | start h => exact AppSound.opened h
  | step hrun hs hstep ih =>
    obtain ⟨ws, hsound⟩ := ih
    exact hsound.step hs hstep

/-- The application on empty files. -/
def emptyApp : EngineApp := { engine := ⟨{}, {}⟩ }

theorem emptyApp_runs {P : EngineApp → RequestStep → Prop} : AppRuns P emptyApp := by
  have hinit : StorageEngine.init ⟨EngineFiles.logOf [], none⟩ = .ok emptyApp.engine := rfl
  exact .start hinit

/-- Requests one after the other. -/
def EngineApp.runs (a : EngineApp) (ss : List RequestStep) : Option EngineApp :=
  ss.foldlM EngineApp.step a

theorem AppRuns.of_runs (ss : List RequestStep) : ∀ {a a' : EngineApp},
    AppRuns (fun _ _ => True) a → a.runs ss = some a' → AppRuns (fun _ _ => True) a' := by
  induction ss with
  | nil =>
    intro a a' hrun hruns
    cases hruns
    exact hrun
  | cons s ss ih =>
    intro a a' hrun hruns
    unfold EngineApp.runs at hruns
    rw [List.foldlM_cons] at hruns
    obtain ⟨a₁, hstep, hrest⟩ := Option.bind_eq_some_iff.mp hruns
    exact ih (hrun.step trivial hstep) hrest

/-- Two requests for one key under way at once, which change the dictionary in the order of their
records. -/
def twoLogged : EngineApp :=
  (emptyApp.appendRecord 0 (.put "x" "1")).appendRecord 1 (.put "x" "2")

def afterTwoPuts : EngineApp :=
  (twoLogged.storeWrite 0 (.put "x" "1")).storeWrite 1 (.put "x" "2")

theorem twoLogged_requests {j : Nat} (h0 : j ≠ 0) (h1 : j ≠ 1) : twoLogged.requests j = none :=
  (Function.update_of_ne h1 _ _).trans (Function.update_of_ne h0 _ _)

theorem afterTwoPuts_runs : AppRuns EngineApp.InOrder afterTwoPuts := by
  have hlogged : AppRuns EngineApp.InOrder twoLogged :=
    (emptyApp_runs.step (s := .begin 0 (.put "x" "1")) trivial rfl).step
      (s := .begin 1 (.put "x" "2")) trivial rfl
  refine (hlogged.step (s := .store 0) ?_ rfl).step (s := .store 1) ?_ rfl
  · -- its record is the first one
    intro w p hi j v q _ _
    have h0 : twoLogged.requests 0 = some (.put "x" "1", .logged 0) := rfl
    cases h0.symm.trans hi
    exact Nat.zero_le q
  · -- no other request is left
    intro w p hi j v q hj _
    by_cases h1 : j = 1
    · subst h1
      cases hi.symm.trans hj
      exact Nat.le_refl p
    · have hnone : (twoLogged.storeWrite 0 (.put "x" "1")).requests j = none := by
        by_cases h0 : j = 0
        · subst h0
          rfl
        · exact (Function.update_of_ne h0 _ _).trans (twoLogged_requests h0 h1)
      cases hnone.symm.trans hj

theorem afterTwoPuts_idle : afterTwoPuts.Idle := by
  intro i
  by_cases h1 : i = 1
  · subst h1
    rfl
  refine (Function.update_of_ne h1 _ _).trans ?_
  by_cases h0 : i = 0
  · subst h0
    rfl
  · exact (Function.update_of_ne h0 _ _).trans (twoLogged_requests h0 h1)

theorem memory_rebuilt_twoPuts :
    afterTwoPuts.engine.files.recover = .ok afterTwoPuts.engine.store :=
  memory_rebuilt afterTwoPuts_runs afterTwoPuts_idle

/-- Two requests for one key: the first to append its record is the last to change the dictionary.
-/
def crossedPuts : List RequestStep := [
  .begin 0 (.put "x" "1"),
  .begin 1 (.put "x" "2"),
  .store 1,
  .store 0]

theorem crossedPuts_runs : (emptyApp.runs crossedPuts).isSome = true := by decide +kernel

/-- What they leave. -/
def crossedApp : EngineApp :=
  (twoLogged.storeWrite 1 (.put "x" "2")).storeWrite 0 (.put "x" "1")

theorem crossedApp_idle : crossedApp.Idle := by
  intro i
  by_cases h0 : i = 0
  · subst h0
    rfl
  refine (Function.update_of_ne h0 _ _).trans ?_
  by_cases h1 : i = 1
  · subst h1
    rfl
  · exact (Function.update_of_ne h1 _ _).trans (twoLogged_requests h0 h1)

/-- **The dictionary and the log can disagree** for good. -/
theorem memory_not_rebuilt : ¬ ∀ {a : EngineApp}, AppRuns (fun _ _ => True) a → a.Idle →
    a.engine.files.recover = .ok a.engine.store := by
  intro hall
  obtain ⟨a, ha⟩ := Option.isSome_iff_exists.mp crossedPuts_runs
  have hidle : a.Idle := by
    have hruns : emptyApp.runs crossedPuts = some crossedApp := rfl
    cases ha.symm.trans hruns
    exact crossedApp_idle
  have hsame := hall (AppRuns.of_runs crossedPuts emptyApp_runs ha) hidle
  have hmemory : (emptyApp.runs crossedPuts).map (·.engine.store.get "x") = some (some "1") := by
    decide +kernel
  have hdisk : (emptyApp.runs crossedPuts).map
      (fun a => a.engine.files.recover.toOption.map (·.get "x")) = some (some (some "2")) := by
    decide +kernel
  rw [ha] at hmemory hdisk
  rw [Option.map_some, hsame] at hdisk
  exact absurd ((Option.some.inj hmemory).symm.trans (Option.some.inj (Option.some.inj hdisk)))
    (by decide)

end PyRaftKv
