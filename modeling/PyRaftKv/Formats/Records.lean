/-
# Files with one JSON object a line

An object is written on one line, which is not blank.  A piece of the line is the whole line, or
it is refused.
-/
import PyRaftKv.Formats.Lines
import PyRaftKv.Formats.RoundTrip

namespace Formats.Json

theorem dump_oneLine (p : Separators) (v : Json) : OneLine (dump p v) := by
  intro c hc
  obtain ⟨h1, h2⟩ := dump_printable p v c hc
  simp only [isBreak, Bool.or_eq_false_iff, Bool.and_eq_false_iff, decide_eq_false_iff_not]
  omega

theorem piece_oneLine {p : Separators} {v : Json} {piece : List Char} (h : Piece (dump p v) piece) :
    OneLine piece := (dump_oneLine p v).of_isPrefix h.2

theorem splitLines_torn {p : Separators} {v : Json} {piece : List Char}
    (h : Piece (dump p v) piece) : splitLines piece = [piece] := by
  rw [splitLines_piece (piece_oneLine h), if_neg h.1]

theorem blankLine_torn {p : Separators} {members : List (String × Json)} {piece : List Char}
    (h : Piece (dump p (.obj members)) piece) : blankLine piece = false := by
  obtain ⟨hne, u, hu⟩ := h
  obtain ⟨c, s, rfl⟩ := List.exists_cons_of_ne_nil hne
  rw [dump, List.cons_append] at hu
  rw [(List.cons.inj hu).1]
  simp [blankLine, isSpace]

theorem whole_piece (p : Separators) (members : List (String × Json)) :
    Piece (dump p (.obj members)) (dump p (.obj members)) := by
  refine ⟨?_, List.prefix_refl _⟩
  rw [dump]
  exact List.cons_ne_nil _ _

/-- **A piece of a line** is the whole line, or it is refused. -/
theorem load_torn {p : Separators} {members : List (String × Json)} {piece : List Char}
    (h : Piece (dump p (.obj members)) piece) :
    load piece = if piece = dump p (.obj members) then some (.obj members) else none := by
  split
  · rename_i hwhole
    rw [hwhole, load_dump]
  · rename_i hne
    obtain ⟨-, u, hu⟩ := h
    refine load_cut rfl hu.symm ?_
    rintro rfl
    exact hne (by rw [← hu, List.append_nil])

/-- Two lines without a newline between them are refused. -/
theorem load_glued (p q : Separators) (ms ns : List (String × Json)) (t : List Char) :
    load (dump p (.obj ms) ++ (dump q (.obj ns) ++ t)) = none := by
  refine load_dump_append rfl ?_
  rw [skip_dump, dump]
  exact List.cons_ne_nil _ _

/-- What begins with a brace is an object, if it can be read. -/
theorem load_brace {s : List Char} {v : Json} (h : load ('{' :: s) = some v) :
    ∃ members, v = .obj members := by
  unfold load at h
  rw [skip_cons (c := '{') rfl, List.length_cons] at h
  split at h
  · rename_i w r hw
    split at h
    · cases h
      rw [scanValue] at hw
      split at hw
      · cases hw
        exact ⟨_, rfl⟩
      · obtain ⟨⟨ms, r'⟩, -, heq⟩ := Option.map_eq_some_iff.mp hw
        cases heq
        exact ⟨_, rfl⟩
    · cases h
  · cases h

/-- Only a bracket begins an array. -/
theorem scanValue_arr {n : Nat} {c : Char} {s r : List Char} {items : List Json}
    (h : scanValue n (c :: s) = some (.arr items, r)) : c = '[' := by
  cases n with
  | zero => cases h
  | succ n =>
    rw [scanValue.eq_def] at h
    simp only at h
    split at h
    · obtain ⟨_, -, heq⟩ := Option.map_eq_some_iff.mp h
      cases heq
    · split at h
      · cases h
      · obtain ⟨_, -, heq⟩ := Option.map_eq_some_iff.mp h
        cases heq
    · rfl
    · unfold expect at h
      split at h <;> cases h
    · unfold expect at h
      split at h <;> cases h
    · unfold expect at h
      split at h <;> cases h
    · obtain ⟨_, -, heq⟩ := Option.map_eq_some_iff.mp h
      cases heq

/-- A text that holds an array has a bracket in it. -/
theorem mem_of_load_arr {s : List Char} {items : List Json} (h : load s = some (.arr items)) :
    '[' ∈ s := by
  unfold load at h
  split at h
  · rename_i v r hscan
    split at h
    · cases h
      rcases hskip : skip s with _ | ⟨c, s'⟩
      · rw [hskip, scanValue_nil] at hscan
        cases hscan
      · rw [hskip] at hscan
        obtain rfl := scanValue_arr hscan
        have hsub : skip s ⊆ s := (List.dropWhile_suffix isBlank).subset
        exact hsub (by rw [hskip]; exact List.mem_cons_self)
    · cases h
  · cases h
end Formats.Json
