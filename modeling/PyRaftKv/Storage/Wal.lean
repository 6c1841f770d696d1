/-
# `storage/wal.py`: the write-ahead log of the standalone engine

The log is a text file.  `_append` adds one record as a line of JSON; `replay` reads the lines
back and forgives a record that cannot be read if it stands in the last line.

`replay_records` is the round trip, `replay_torn` what a record that was cut short adds to it.
-/
import PyRaftKv.Formats.Records

namespace PyRaftKv

open Formats

/-- What the storage package raises, with the source's own text where it has one. -/
inductive StorageError
  | walCorruptionError (message : String)
  | keyError (key : String)
  | typeError
  | valueError (message : String)
deriving DecidableEq

/-- The record that `append_put` and `append_delete` build. -/
structure WalEntry where
  operation : String
  key : String
  value : Option String
deriving DecidableEq

namespace WalEntry

def put (key value : String) : WalEntry := ⟨"PUT", key, some value⟩

def delete (key : String) : WalEntry := ⟨"DELETE", key, none⟩

def toJson (e : WalEntry) : Json :=
  .obj [("operation", .str e.operation), ("key", .str e.key),
    ("value", e.value.elim .null .str)]

/-- `json.dumps(entry)`. -/
def text (e : WalEntry) : List Char := e.toJson.dump Json.spaced

end WalEntry

namespace Wal

/-- `_append`: the file after the entry's line. -/
def append (file : List Char) (entry : WalEntry) : List Char := file ++ (entry.text ++ ['\n'])

/-- The loop of `replay` over the lines from number `index` on. -/
def replayLines (index : Nat) : List (List Char) → Except StorageError (List Json)
  | [] => .ok []
  | line :: lines =>
    if blankLine line then replayLines (index + 1) lines
    else match Json.load line with
      | some entry => (replayLines (index + 1) lines).map (entry :: ·)
      | none =>
        if lines = [] then .ok []
        else .error (.walCorruptionError s!"Corrupted WAL record at line {index + 1}")

def replay (file : List Char) : Except StorageError (List Json) := replayLines 0 (splitLines file)

end Wal

/-! ## 1. One record -/

namespace WalEntry

theorem text_oneLine (e : WalEntry) : OneLine e.text := Json.dump_oneLine _ _

theorem whole_piece (e : WalEntry) : Piece e.text e.text := Json.whole_piece _ _

/-- What is left of a record that a crash cuts short. -/
def torn (e : WalEntry) (piece : List Char) : List WalEntry := if piece = e.text then [e] else []

end WalEntry

/-! ## 2. Reading a log back -/

namespace Wal

/-- The text of a log that holds the records `es`. -/
def records (es : List WalEntry) : List Char := unlines (es.map (·.text))

theorem append_records (es : List WalEntry) (e : WalEntry) :
    append (records es) e = records (es ++ [e]) := by
  rw [records, records, List.map_append, List.map_singleton, unlines_snoc]
  rfl

theorem replayLines_records (es : List WalEntry) (lines : List (List Char)) : ∀ (index : Nat),
    replayLines index (es.map (·.text) ++ lines) =
      (replayLines (index + es.length) lines).map (es.map (·.toJson) ++ ·) := by
  induction es with
  | nil =>
    intro index
    simp only [List.map_nil, List.nil_append, List.length_nil, Nat.add_zero]
    cases replayLines index lines <;> rfl
  | cons e es ih =>
    intro index
    have hblank : blankLine e.text = false := Json.blankLine_torn e.whole_piece
    have hload : Json.load e.text = some e.toJson := Json.load_dump _ _
    rw [List.map_cons, List.cons_append, replayLines, hblank, hload]
    simp only [Bool.false_eq_true, if_false]
    rw [ih, List.length_cons, Nat.add_right_comm index 1 es.length, Nat.add_assoc index]
    cases replayLines (index + (es.length + 1)) lines <;> rfl

theorem splitLines_records (es : List WalEntry) (s : List Char) :
    splitLines (records es ++ s) = es.map (·.text) ++ splitLines s := by
  refine splitLines_unlines _ ?_ s
  intro l hl
  obtain ⟨e, -, rfl⟩ := List.mem_map.mp hl
  exact e.text_oneLine

/-- **Round trip.** -/
theorem replay_records (es : List WalEntry) : replay (records es) = .ok (es.map (·.toJson)) := by
  have hlines := splitLines_records es []
  rw [List.append_nil] at hlines
  unfold replay
  rw [hlines, show splitLines [] = [] from rfl, replayLines_records, replayLines]
  simp [Except.map]

/-- **A torn record is forgiven at the end of the log**, and read if only its newline is missing. -/
theorem replay_torn (es : List WalEntry) {e : WalEntry} {piece : List Char}
    (h : Piece e.text piece) :
    replay (records es ++ piece) = .ok ((es ++ e.torn piece).map (·.toJson)) := by
  have hline : splitLines piece = [piece] := Json.splitLines_torn h
  have hblank : blankLine piece = false := Json.blankLine_torn h
  have hload : Json.load piece = if piece = e.text then some e.toJson else none :=
    Json.load_torn h
  unfold replay
  rw [splitLines_records, hline, replayLines_records, replayLines, hblank, hload]
  unfold WalEntry.torn
  by_cases hwhole : piece = e.text
  · simp [hwhole, replayLines, Except.map]
  · simp [hwhole, Except.map]

end Wal

end PyRaftKv
