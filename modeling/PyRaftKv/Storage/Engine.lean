/-
# `storage/engine.py`: the standalone engine

A `StorageEngine` keeps a dictionary in memory, a write-ahead log and a snapshot on disk.  The
snapshot file is replaced as a whole, and is modelled as the dictionary it decodes to; the log is
modelled as its text.

`recover_records` says what an engine that is opened reads back; `Rebuilds` is that as a property
of the files.
-/
import PyRaftKv.Storage.Store
import PyRaftKv.Storage.Wal

namespace PyRaftKv

open Formats

/-- `entry[key]`. -/
def item (entry : Json) (key : String) : Except StorageError Json :=
  match entry with
  | .obj _ =>
    match entry.get? key with
    | some value => .ok value
    | none => .error (.keyError key)
  | _ => .error .typeError

namespace KVStore

/-- `apply`.  A key or a value that is not a text is not modelled, and refused. -/
def apply (s : KVStore) (entry : Json) : Except StorageError KVStore := do
  let operation ← item entry "operation"
  let key ← item entry "key"
  match operation with
  | .str "PUT" =>
    match ← item entry "value", key with
    | .null, _ => .error (.valueError "PUT operation requires a value")
    | .str value, .str key => .ok (s.put key value)
    | _, _ => .error .typeError
  | .str "DELETE" =>
    match key with
    | .str key => .ok (s.delete key).2
    | _ => .error .typeError
  | .str name => .error (.valueError s!"Unknown operation: {name}")
  | _ => .error .typeError

end KVStore

/-- The two files of an engine. -/
structure EngineFiles where
  wal : List Char := []
  snapshot : Option Dict := none

namespace EngineFiles

/-- `WAL._append`. -/
def append (f : EngineFiles) (entry : WalEntry) : EngineFiles :=
  { f with wal := Wal.append f.wal entry }

/-- `SnapshotStore.load`. -/
def loadSnapshot (f : EngineFiles) : Dict := f.snapshot.getD ∅

/-- `_recover`, on the empty store of a new engine. -/
def recover (f : EngineFiles) : Except StorageError KVStore := do
  let store : KVStore := {}
  let store := if f.loadSnapshot.isEmpty then store else store.restore f.loadSnapshot
  (← Wal.replay f.wal).foldlM KVStore.apply store

end EngineFiles

/-- A running engine. -/
structure StorageEngine where
  files : EngineFiles
  store : KVStore

namespace StorageEngine

/-- `__init__` on files that are there. -/
def init (f : EngineFiles) : Except StorageError StorageEngine := f.recover.map fun s => ⟨f, s⟩

def put (e : StorageEngine) (key value : String) : StorageEngine :=
  ⟨e.files.append (.put key value), e.store.put key value⟩

def get (e : StorageEngine) (key : String) : Option String := e.store.get key

/-- `delete` answers whether the key was there. -/
def delete (e : StorageEngine) (key : String) : Bool × StorageEngine :=
  match e.store.get key with
  | none => (false, e)
  | some _ => ((e.store.delete key).1, ⟨e.files.append (.delete key), (e.store.delete key).2⟩)

/-- The file that `SnapshotStore.save` leaves. -/
def saveSnapshot (e : StorageEngine) : EngineFiles := { e.files with snapshot := e.store.snapshot }

def createSnapshot (e : StorageEngine) : StorageEngine :=
  { e with files := { e.saveSnapshot with wal := [] } }

end StorageEngine

/-- A call of `put` or `delete`. -/
inductive EngineWrite
  | put (key value : String)
  | delete (key : String)
deriving DecidableEq

namespace EngineWrite

def key : EngineWrite → String
  | .put key _ => key
  | .delete key => key

/-- What the call does to a dictionary. -/
def run (s : KVStore) : EngineWrite → KVStore
  | .put key value => s.put key value
  | .delete key => (s.delete key).2

/-- The record the call appends. -/
def entry : EngineWrite → WalEntry
  | .put key value => .put key value
  | .delete key => .delete key

/-- The value the call leaves under its key. -/
def result : EngineWrite → Option String
  | .put _ value => some value
  | .delete _ => none

/-- Whether the call appends a record at all. -/
def appends (s : KVStore) : EngineWrite → Bool
  | .put _ _ => true
  | .delete key => (s.get key).isSome

/-- The engine after the call. -/
def call (e : StorageEngine) : EngineWrite → StorageEngine
  | .put key value => e.put key value
  | .delete key => (e.delete key).2

end EngineWrite

/-! ## 1. What a call does -/

theorem KVStore.get_put (s : KVStore) (key value k : String) :
    (s.put key value).get k = if k = key then some value else s.get k := by
  by_cases h : k = key
  · subst h
    simp [KVStore.get, KVStore.put]
  · simp [KVStore.get, KVStore.put, Std.ExtTreeMap.getElem?_insert, h, Ne.symm h]

theorem KVStore.get_delete (s : KVStore) (key k : String) :
    (s.delete key).2.get k = if k = key then none else s.get k := by
  unfold KVStore.delete
  split
  · by_cases h : k = key
    · subst h
      simp [KVStore.get]
    · simp [KVStore.get, Std.ExtTreeMap.getElem?_erase, h, Ne.symm h]
  · rename_i hc
    split
    · rename_i h
      subst h
      simpa [KVStore.get] using hc
    · rfl

theorem KVStore.ext_get {s t : KVStore} (h : ∀ k, s.get k = t.get k) : s = t := by
  cases s
  cases t
  congr 1
  exact Std.ExtTreeMap.ext_getElem? h

theorem KVStore.get_run (s : KVStore) (w : EngineWrite) (k : String) :
    (w.run s).get k = if k = w.key then w.result else s.get k := by
  cases w with
  | put key value => exact s.get_put key value k
  | delete key => exact s.get_delete key k

/-- The dictionary and the files after a call. -/
theorem EngineWrite.call_eq (e : StorageEngine) (w : EngineWrite) :
    w.call e = ⟨if w.appends e.store then e.files.append w.entry else e.files, w.run e.store⟩ := by
  cases w with
  | put key value => rfl
  | delete key =>
    simp only [call, StorageEngine.delete, run]
    split
    · rename_i hget
      have happends : appends e.store (.delete key) = false := by simp [appends, hget]
      have hsame : (e.store.delete key).2 = e.store := by
        apply KVStore.ext_get
        intro k
        rw [KVStore.get_delete]
        split
        · rename_i hk
          rw [hk, hget]
        · rfl
      rw [hsame, happends]
      rfl
    · rename_i hget
      have happends : appends e.store (.delete key) = true := by simp [appends, hget]
      rw [happends]
      rfl

/-! ## 2. Reading back -/

theorem KVStore.apply_entry (s : KVStore) (w : EngineWrite) :
    s.apply w.entry.toJson = .ok (w.run s) := by
  cases w <;> rfl

theorem foldlM_apply (ws : List EngineWrite) : ∀ (s : KVStore),
    (ws.map fun w => w.entry.toJson).foldlM KVStore.apply s = .ok (ws.foldl EngineWrite.run s) := by
  induction ws with
  | nil =>
    intro s
    rfl
  | cons w ws ih =>
    intro s
    rw [List.map_cons, List.foldlM_cons, KVStore.apply_entry]
    exact ih (w.run s)

namespace EngineFiles

/-- The text of a log that holds the records of `ws`. -/
def logOf (ws : List EngineWrite) : List Char := Wal.records (ws.map (·.entry))

/-- **An engine that is opened on the files reads the writes `ws`** back, on top of the snapshot.
The last record may have been cut short: if only its newline is missing it counts, if more is
missing it does not. -/
inductive Holds (f : EngineFiles) : List EngineWrite → Prop
  | whole {ws : List EngineWrite} (h : f.wal = logOf ws) : Holds f ws
  | torn {ws : List EngineWrite} {w : EngineWrite} {piece : List Char}
      (h : f.wal = logOf ws ++ piece) (hpiece : Piece w.entry.text piece)
      (hne : piece ≠ w.entry.text) : Holds f ws
  | unended {ws : List EngineWrite} {w : EngineWrite} (h : f.wal = logOf ws ++ w.entry.text) :
      Holds f (ws ++ [w])

/-- The store that the snapshot stands for. -/
def base (f : EngineFiles) : KVStore := ⟨f.loadSnapshot⟩

theorem recover_of_replay {f : EngineFiles} {ws : List EngineWrite}
    (h : Wal.replay f.wal = .ok ((ws.map (·.entry)).map (·.toJson))) :
    f.recover = .ok (ws.foldl EngineWrite.run f.base) := by
  have hbase : (if f.loadSnapshot.isEmpty = true then ({} : KVStore)
      else ({} : KVStore).restore f.loadSnapshot) = f.base := by
    split
    · rename_i hempty
      rw [base, Std.ExtTreeMap.isEmpty_iff.mp hempty]
    · rfl
  have hfold := foldlM_apply ws f.base
  unfold recover
  rw [h, List.map_map]
  simp only [hbase]
  exact hfold

theorem Holds.recover {f : EngineFiles} {ws : List EngineWrite} (h : f.Holds ws) :
    f.recover = .ok (ws.foldl EngineWrite.run f.base) := by
  apply recover_of_replay
  cases h with
  | whole h => rw [h, logOf, Wal.replay_records]
  | torn h hpiece hne =>
    rw [h, logOf, Wal.replay_torn _ hpiece, WalEntry.torn, if_neg hne, List.append_nil]
  | @unended ws w h =>
    rw [h, logOf, Wal.replay_torn _ w.entry.whole_piece, WalEntry.torn, if_pos rfl]
    simp only [List.map_append, List.map_cons, List.map_nil]

/-- Where the log ends with a newline, every record in it is whole. -/
theorem Holds.terminated {f : EngineFiles} {ws : List EngineWrite} (h : f.Holds ws)
    (hf : Terminated f.wal) : f.wal = logOf ws := by
  cases h with
  | whole h => exact h
  | @torn _ w piece h hpiece hne =>
    rw [h] at hf
    exact absurd hf (not_terminated_piece w.entry.text_oneLine hpiece)
  | @unended ws w h =>
    rw [h] at hf
    exact absurd hf (not_terminated_piece w.entry.text_oneLine w.entry.whole_piece)

theorem append_logOf {f : EngineFiles} {ws : List EngineWrite} (h : f.wal = logOf ws)
    (w : EngineWrite) : (f.append w.entry).wal = logOf (ws ++ [w]) := by
  unfold append
  rw [h, logOf, Wal.append_records, logOf, List.map_append]
  rfl

/-- A record is appended to a log that ends with a newline. -/
theorem Holds.append {f : EngineFiles} {ws : List EngineWrite} (h : f.Holds ws)
    (hf : Terminated f.wal) (w : EngineWrite) : (f.append w.entry).Holds (ws ++ [w]) :=
  .whole (append_logOf (h.terminated hf) w)

/-- A crash leaves the first characters of the record that was being appended. -/
def cut (f : EngineFiles) (w : EngineWrite) (kept : Nat) : EngineFiles :=
  { f with wal := f.wal ++ (w.entry.text ++ ['\n']).take kept }

theorem Holds.cut {f : EngineFiles} {ws : List EngineWrite} (h : f.Holds ws)
    (hf : Terminated f.wal) (w : EngineWrite) (kept : Nat) :
    (f.cut w kept).Holds ws ∨ (f.cut w kept).Holds (ws ++ [w]) := by
  have hwal := h.terminated hf
  have hcut : (f.cut w kept).wal = logOf ws ++ (w.entry.text ++ ['\n']).take kept := by
    rw [← hwal]
    rfl
  rcases Nat.lt_or_ge w.entry.text.length kept with hlong | hshort
  · right
    refine .whole ?_
    rw [hcut, List.take_of_length_le (by simp; omega), ← append_logOf hwal w, ← hwal]
    rfl
  · rw [List.take_append_of_le_length hshort] at hcut
    by_cases hnil : w.entry.text.take kept = []
    · left
      exact .whole (by rw [hcut, hnil, List.append_nil])
    · by_cases hwhole : w.entry.text.take kept = w.entry.text
      · right
        exact .unended (by rw [hcut, hwhole])
      · left
        exact .torn hcut ⟨hnil, List.take_prefix _ _⟩ hwhole

end EngineFiles

end PyRaftKv
