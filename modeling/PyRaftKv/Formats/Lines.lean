/-
# Texts made of lines

`splitLines` is what a text's lines are for a reader: a line ends with a line break or with the
text.  `unlines` is what a writer puts down that ends each line with a newline.  A text of whole
lines that is cut anywhere is some of the lines, and a piece of the next one.
-/
import Mathlib

namespace Formats

/-! ## 1. Reading and writing lines -/

/-- The characters that end a line. -/
def isBreak (c : Char) : Bool :=
  (10 ≤ c.toNat && c.toNat ≤ 13) || (28 ≤ c.toNat && c.toNat ≤ 30) || c.toNat = 133 ||
    c.toNat = 8232 || c.toNat = 8233

/-- The lines of a text, the characters of the first one read so far in front, the last one first.
-/
def splitFrom : List Char → List Char → List (List Char)
  | line, [] => if line = [] then [] else [line.reverse]
  | line, '\r' :: '\n' :: s => line.reverse :: splitFrom [] s
  | line, c :: s => if isBreak c then line.reverse :: splitFrom [] s else splitFrom (c :: line) s

def splitLines (s : List Char) : List (List Char) := splitFrom [] s

/-- White space, in a text of any language. -/
def isSpace (c : Char) : Bool :=
  (9 ≤ c.toNat && c.toNat ≤ 13) || (28 ≤ c.toNat && c.toNat ≤ 32) || c.toNat = 133 ||
    c.toNat = 160 || c.toNat = 5760 || (8192 ≤ c.toNat && c.toNat ≤ 8202) || c.toNat = 8232 ||
    c.toNat = 8233 || c.toNat = 8239 || c.toNat = 8287 || c.toNat = 12288

def blankLine (line : List Char) : Bool := line.all isSpace

/-- Each line, ended with a newline. -/
def unlines (lines : List (List Char)) : List Char := lines.flatMap (· ++ ['\n'])

/-- A line without a line break of its own. -/
def OneLine (line : List Char) : Prop := ∀ c ∈ line, isBreak c = false

/-- The text is empty or ends with a newline: what is appended to it begins a new line. -/
def Terminated (s : List Char) : Prop := s = [] ∨ s.getLast? = some '\n'

instance (s : List Char) : Decidable (Terminated s) := inferInstanceAs (Decidable (_ ∨ _))

theorem OneLine.of_isPrefix {l m : List Char} (h : OneLine m) (hl : l <+: m) : OneLine l :=
  fun c hc => h c (hl.subset hc)

@[simp] theorem unlines_nil : unlines [] = [] := rfl

theorem unlines_cons (l : List Char) (ls : List (List Char)) :
    unlines (l :: ls) = l ++ '\n' :: unlines ls := by
  simp [unlines]

theorem unlines_append (ls ms : List (List Char)) : unlines (ls ++ ms) = unlines ls ++ unlines ms :=
  List.flatMap_append

theorem unlines_snoc (ls : List (List Char)) (l : List Char) :
    unlines (ls ++ [l]) = unlines ls ++ (l ++ ['\n']) := by
  rw [unlines_append, unlines_cons, unlines_nil]

theorem terminated_unlines (ls : List (List Char)) : Terminated (unlines ls) := by
  rcases List.eq_nil_or_concat ls with rfl | ⟨ms, l, rfl⟩
  · exact Or.inl rfl
  · right
    rw [List.concat_eq_append, unlines_snoc, ← List.append_assoc, List.getLast?_concat]

/-! ## 2. The lines of a written text -/

theorem splitFrom_step {c : Char} (hc : isBreak c = false) (line s : List Char) :
    splitFrom line (c :: s) = splitFrom (c :: line) s := by
  rw [splitFrom.eq_3]
  · rw [hc]
    rfl
  · rintro s' rfl
    exact absurd hc (by decide)

theorem splitFrom_oneLine {l : List Char} (hl : OneLine l) : ∀ (line s : List Char),
    splitFrom line (l ++ s) = splitFrom (l.reverse ++ line) s := by
  induction l with
  | nil =>
    intro line s
    rfl
  | cons c l ih =>
    intro line s
    have hc := hl c List.mem_cons_self
    rw [List.cons_append, splitFrom_step hc, ih fun d hd => hl d (List.mem_cons_of_mem c hd)]
    simp

theorem splitLines_cons {l : List Char} (hl : OneLine l) (s : List Char) :
    splitLines (l ++ '\n' :: s) = l :: splitLines s := by
  unfold splitLines
  rw [splitFrom_oneLine hl]
  simp [splitFrom, isBreak]

/-- **A text of whole lines** has these lines, and the lines of what follows. -/
theorem splitLines_unlines (ls : List (List Char)) (hls : ∀ l ∈ ls, OneLine l) (s : List Char) :
    splitLines (unlines ls ++ s) = ls ++ splitLines s := by
  induction ls with
  | nil => rfl
  | cons l ls ih =>
    rw [unlines_cons, List.append_assoc, List.cons_append,
      splitLines_cons (hls l List.mem_cons_self), ih fun m hm => hls m (List.mem_cons_of_mem l hm),
      List.cons_append]

theorem splitLines_piece {l : List Char} (hl : OneLine l) :
    splitLines l = if l = [] then [] else [l] := by
  have h := splitFrom_oneLine hl [] []
  rw [List.append_nil, List.append_nil] at h
  unfold splitLines
  rw [h, splitFrom]
  simp

/-! ## 3. Cutting a text of whole lines -/

/-- A piece of the line `l` that is not empty. -/
def Piece (l piece : List Char) : Prop := piece ≠ [] ∧ piece <+: l

/-- **A text of whole lines cut anywhere**: the first `k` lines, and perhaps a piece of the next. -/
theorem cut_unlines (ls : List (List Char)) : ∀ {s t : List Char}, unlines ls = s ++ t →
    ∃ k piece, s = unlines (ls.take k) ++ piece ∧
      (piece = [] ∨ ∃ l, ls[k]? = some l ∧ Piece l piece) := by
  induction ls with
  | nil =>
    intro s t h
    obtain ⟨rfl, -⟩ := List.append_eq_nil_iff.mp h.symm
    exact ⟨0, [], rfl, Or.inl rfl⟩
  | cons l ls ih =>
    intro s t h
    rw [unlines_cons] at h
    rcases List.append_eq_append_iff.mp h with ⟨u, rfl, hu⟩ | ⟨u, rfl, hu⟩
    · cases u with
      | nil =>
        refine ⟨0, l ++ [], rfl, ?_⟩
        by_cases hl : l = []
        · exact Or.inl (by rw [hl, List.append_nil])
        · exact Or.inr ⟨l, rfl, by simpa using hl, by simp⟩
      | cons c u =>
        obtain ⟨rfl, hrest⟩ := List.cons.inj hu
        obtain ⟨k, piece, rfl, hpiece⟩ := ih hrest
        exact ⟨k + 1, piece, by rw [List.take_succ_cons, unlines_cons]; simp, hpiece⟩
    · refine ⟨0, s, rfl, ?_⟩
      by_cases hs : s = []
      · exact Or.inl hs
      · exact Or.inr ⟨s ++ u, rfl, hs, List.prefix_append s u⟩

/-- A piece of a line leaves the text without a newline at its end. -/
theorem not_terminated_piece {s l piece : List Char} (hl : OneLine l) (h : Piece l piece) :
    ¬ Terminated (s ++ piece) := by
  obtain ⟨q, c, rfl⟩ : ∃ q c, piece = q ++ [c] :=
    ⟨_, _, (List.dropLast_append_getLast h.1).symm⟩
  have hc := hl c (h.2.subset (by simp))
  rintro (hnil | hlast)
  · simp at hnil
  · rw [← List.append_assoc, List.getLast?_concat] at hlast
    cases hlast
    exact absurd hc (by decide)

end Formats
