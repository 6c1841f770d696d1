/-
# `storage/store.py`: the key-value store

The state machine's state is one dictionary from keys to values.  `KVStore` is that dictionary;
the lock that guards it is not modelled, every method of the source holds it from start to end.
-/
import Mathlib

namespace PyRaftKv

/-- `dict[str, str]`: a finite map, without an order of its own. -/
abbrev Dict := Std.ExtTreeMap String String

/-- `KVStore`. -/
structure KVStore where
  data : Dict := ∅

namespace KVStore

def put (s : KVStore) (key value : String) : KVStore := ⟨s.data.insert key value⟩

def get (s : KVStore) (key : String) : Option String := s.data[key]?

/-- `delete` answers whether the key was there. -/
def delete (s : KVStore) (key : String) : Bool × KVStore :=
  if s.data.contains key then (true, ⟨s.data.erase key⟩) else (false, s)

def snapshot (s : KVStore) : Dict := s.data

def restore (_ : KVStore) (data : Dict) : KVStore := ⟨data⟩

@[simp] theorem restore_snapshot (s t : KVStore) : s.restore t.snapshot = t := rfl

end KVStore

end PyRaftKv
