/-
# `raft/log.py`: commands, entries and the compacted log

A `RaftLog` keeps the entries above its BASE, the last index a snapshot covers.  The class lets
an entry in only at `last_index + 1`, so the indexes it holds have no gap; here that is a field of
the structure, and so are the two facts about the base that every method keeps.  A method that
raises leaves the log as it was: it returns `Except`, and the caller keeps the old log.
-/
import Mathlib

namespace PyRaftKv

/-- What the code raises.  The message is the source's own text. -/
inductive RaftError
  | valueError (message : String)
  | runtimeError (message : String)
  | notLeaderError (message : String)
  | leadershipTransferInProgressError (message : String)
  | readQuorumError (message : String)
  | raftPersistenceError (message : String)
deriving DecidableEq

/-- `RaftCommand.operation`: the two the state machine knows, or any other text. -/
inductive Operation
  | put
  | delete
  | other (name : String) (h : name ≠ "PUT" ∧ name ≠ "DELETE")
deriving DecidableEq

def Operation.text : Operation → String
  | .put => "PUT"
  | .delete => "DELETE"
  | .other name _ => name

def Operation.ofText (name : String) : Operation :=
  if hput : name = "PUT" then .put
  else if hdelete : name = "DELETE" then .delete
  else .other name ⟨hput, hdelete⟩

theorem Operation.ofText_text (o : Operation) : Operation.ofText o.text = o := by
  cases o with
  | put => rfl
  | delete => rfl
  | other name h =>
    unfold Operation.ofText Operation.text
    rw [dif_neg h.1, dif_neg h.2]

structure RaftCommand where
  operation : Operation
  key : String
  value : Option String := none
deriving DecidableEq

structure LogEntry where
  index : Int
  term : Int
  command : RaftCommand
deriving DecidableEq

/-- The indexes of `entries` follow one another, the first one after `base`. -/
def Contiguous (base : Int) (entries : List LogEntry) : Prop :=
  ∀ (i : Nat) (e : LogEntry), entries[i]? = some e → e.index = base + i + 1

instance (base : Int) (entries : List LogEntry) : Decidable (Contiguous base entries) :=
  decidable_of_iff (∀ i : Fin entries.length, (entries.get i).index = base + i + 1) (by
    constructor
    · intro h i e he
      obtain ⟨hi, rfl⟩ := List.getElem?_eq_some_iff.mp he
      exact h ⟨i, hi⟩
    · exact fun h i => h i _ (List.getElem?_eq_some_iff.mpr ⟨i.isLt, rfl⟩))

/-! ### The boundary that a log and a snapshot start from, and those that the checks let in -/

theorem start_nonneg : (0 : Int) ≤ 0 := le_rfl

theorem start_zero : (0 : Int) = 0 → (0 : Int) = 0 := id

theorem Contiguous.nil (base : Int) : Contiguous base [] := by
  intro i e h
  simp at h

theorem start_contiguous : Contiguous 0 [] := .nil 0

theorem boundary_nonneg {k : Int} (h : ¬ k < 0) : 0 ≤ k := not_lt.mp h

theorem boundary_zero {index term : Int} (h : ¬ (index = 0 ∧ term ≠ 0)) (hindex : index = 0) :
    term = 0 := by
  by_contra hne
  exact h ⟨hindex, hne⟩

/-- `RaftLog`. -/
@[ext] structure RaftLog where
  baseIndex : Int := 0
  baseTerm : Int := 0
  entries : List LogEntry := []
  base_nonneg : 0 ≤ baseIndex := by first | exact start_nonneg | decide
  base_zero : baseIndex = 0 → baseTerm = 0 := by first | exact start_zero | decide
  contiguous : Contiguous baseIndex entries := by first | exact start_contiguous | decide

/-! ## 1. Contiguity of the lists the methods build -/

theorem Contiguous.take {base : Int} {es : List LogEntry} (h : Contiguous base es) (k : Nat) :
    Contiguous base (es.take k) := by
  intro i e he
  rw [List.getElem?_take] at he
  split at he
  · exact h i e he
  · cases he

theorem Contiguous.drop {base : Int} {es : List LogEntry} (h : Contiguous base es) (k : Nat) :
    Contiguous (base + k) (es.drop k) := by
  intro i e he
  rw [List.getElem?_drop] at he
  have := h _ e he
  push_cast at this
  omega

theorem Contiguous.snoc {base : Int} {es : List LogEntry} (h : Contiguous base es) {e : LogEntry}
    (he : e.index = base + es.length + 1) : Contiguous base (es ++ [e]) := by
  intro i x hx
  rcases Nat.lt_trichotomy i es.length with hi | rfl | hi
  · rw [List.getElem?_append_left hi] at hx
    exact h i x hx
  · rw [List.getElem?_concat_length] at hx
    exact Option.some.inj hx ▸ he
  · rw [List.getElem?_eq_none (by simp; omega)] at hx
    cases hx

/-! ## 2. Reading the log -/

namespace RaftLog

def firstIndex (log : RaftLog) : Int := log.baseIndex + 1

def lastIndex (log : RaftLog) : Int :=
  match log.entries.getLast? with
  | none => log.baseIndex
  | some e => e.index

def lastTerm (log : RaftLog) : Int :=
  match log.entries.getLast? with
  | none => log.baseTerm
  | some e => e.term

/-- The list position of an index. -/
def position (log : RaftLog) (index : Int) : Nat := (index - log.baseIndex - 1).toNat

def get (log : RaftLog) (index : Int) : Option LogEntry :=
  if index ≤ log.baseIndex ∨ index > log.lastIndex then none
  else log.entries[log.position index]?

def termAt (log : RaftLog) (index : Int) : Option Int :=
  if index = log.baseIndex then some log.baseTerm
  else (log.get index).map (·.term)

def entriesFrom (log : RaftLog) (index : Int) : Except RaftError (List LogEntry) :=
  if index ≤ 0 then .error (.valueError "index must be greater than zero")
  else .ok (log.entries.drop (log.position (max index log.firstIndex)))

theorem lastIndex_eq (log : RaftLog) : log.lastIndex = log.baseIndex + log.entries.length := by
  unfold lastIndex
  rcases hl : log.entries.getLast? with _ | e
  · simp [List.getLast?_eq_none_iff.mp hl]
  · rw [List.getLast?_eq_getElem?] at hl
    have hlen := (List.getElem?_eq_some_iff.mp hl).1
    have hidx := log.contiguous _ e hl
    change e.index = log.baseIndex + log.entries.length
    omega

theorem base_le_lastIndex (log : RaftLog) : log.baseIndex ≤ log.lastIndex := by
  rw [lastIndex_eq]
  omega

theorem get_eq_some {log : RaftLog} {index : Int} {e : LogEntry} :
    log.get index = some e ↔
      log.baseIndex < index ∧ log.entries[log.position index]? = some e := by
  unfold get position
  rw [lastIndex_eq]
  split
  · rename_i hout
    constructor
    · intro h; cases h
    · rintro ⟨hlt, he⟩
      have := (List.getElem?_eq_some_iff.mp he).1
      omega
  · rename_i hin
    exact ⟨fun h => ⟨by omega, h⟩, fun h => h.2⟩

/-! ## 3. Changing the log -/

/-- `append_entry`. -/
def appendEntry (log : RaftLog) (entry : LogEntry) : Except RaftError RaftLog :=
  if h : entry.index ≠ log.lastIndex + 1 then
    .error (.valueError s!"Expected log index {log.lastIndex + 1}, got {entry.index}")
  else
    .ok { log with
      entries := log.entries ++ [entry]
      contiguous := log.contiguous.snoc (by rw [← log.lastIndex_eq]; omega) }

/-- `append`: the new entry and the log that ends in it. -/
def append (log : RaftLog) (term : Int) (command : RaftCommand) :
    Except RaftError (LogEntry × RaftLog) :=
  if term < 0 then .error (.valueError "term cannot be negative")
  else
    let entry : LogEntry := ⟨log.lastIndex + 1, term, command⟩
    .ok (entry, { log with
      entries := log.entries ++ [entry]
      contiguous := log.contiguous.snoc (by simp only [entry, log.lastIndex_eq]) })

def truncateFrom (log : RaftLog) (index : Int) : Except RaftError RaftLog :=
  if index ≤ log.baseIndex then
    .error (.valueError "cannot truncate at or before snapshot boundary")
  else .ok { log with
    entries := log.entries.take (log.position index)
    contiguous := log.contiguous.take _ }

/-- `RaftLog(base_index, base_term, entries)`. -/
def new (baseIndex baseTerm : Int) (entries : List LogEntry) : Except RaftError RaftLog :=
  if hneg : baseIndex < 0 then .error (.valueError "base_index cannot be negative")
  else if baseTerm < 0 then .error (.valueError "base_term cannot be negative")
  else if hzero : baseIndex = 0 ∧ baseTerm ≠ 0 then
    .error (.valueError "base_term must be zero when base_index is zero")
  else
    entries.foldlM appendEntry
      { baseIndex, baseTerm, entries := [],
        base_nonneg := boundary_nonneg hneg
        base_zero := boundary_zero hzero
        contiguous := Contiguous.nil _ }

/-- The entries `entries_from(index + 1)` over a boundary at `index` that is not below the base. -/
def rebase (log : RaftLog) (index term : Int) (hle : log.baseIndex ≤ index)
    (hzero : index = 0 → term = 0) : RaftLog where
  baseIndex := index
  baseTerm := term
  entries := log.entries.drop (index - log.baseIndex).toNat
  base_nonneg := by have := log.base_nonneg; omega
  base_zero := hzero
  contiguous := by
    have h := log.contiguous.drop (index - log.baseIndex).toNat
    rwa [show log.baseIndex + ((index - log.baseIndex).toNat : Int) = index by omega] at h

/-- Nothing but the boundary. -/
def boundary (index term : Int) (hnn : 0 ≤ index) (hzero : index = 0 → term = 0) : RaftLog where
  baseIndex := index
  baseTerm := term
  entries := []
  base_nonneg := hnn
  base_zero := hzero
  contiguous := Contiguous.nil _

def compactThrough (log : RaftLog) (index : Int) : Except RaftError RaftLog :=
  if hlt : index < log.baseIndex then
    .error (.valueError "cannot compact before snapshot boundary")
  else if heq : index = log.baseIndex then .ok log
  else
    match log.termAt index with
    | none => .error (.valueError s!"Cannot compact missing log index {index}")
    | some term => .ok (log.rebase index term (by omega) (by have := log.base_nonneg; omega))

def installSnapshotBoundary (log : RaftLog) (index term : Int) : Except RaftError RaftLog :=
  if hlt : index < log.baseIndex then
    .error (.valueError "cannot install an older snapshot boundary")
  else if heq : index = log.baseIndex then
    if term ≠ log.baseTerm then
      .error (.valueError "snapshot term conflicts with current boundary")
    else .ok log
  else if log.termAt index = some term then
    .ok (log.rebase index term (by omega) (by have := log.base_nonneg; omega))
  else
    .ok (boundary index term (by have := log.base_nonneg; omega)
      (by have := log.base_nonneg; omega))

def copy (log : RaftLog) : Except RaftError RaftLog :=
  new log.baseIndex log.baseTerm log.entries

end RaftLog

end PyRaftKv
