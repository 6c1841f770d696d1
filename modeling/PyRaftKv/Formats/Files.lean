/-
# Files that are replaced as a whole, and a process that may stop

The files of a directory, each with its text.  A program writes them with a few operations, and may
stop between any two of them or with a part of a text written: `Crash`.

`Crash.replaced` -- a file that is written under another name and renamed is the old one or the
new one, wherever the program stops.
-/
import PyRaftKv.Formats.Lines

namespace Formats

/-- The text of each file that exists. -/
abbrev Files : Type := String → Option (List Char)

inductive FileOp
  /-- A new, empty file. -/
  | create (name : String)
  /-- A file that is appended to is created if it does not exist. -/
  | openAppend (name : String)
  /-- More text, behind what is there. -/
  | write (name : String) (text : List Char)
  /-- `os.replace(source, target)`. -/
  | replace (source target : String)

namespace Files

def op (files : Files) : FileOp → Files
  | .create name => Function.update files name (some [])
  | .openAppend name => Function.update files name (some ((files name).getD []))
  | .write name text => Function.update files name ((files name).map (· ++ text))
  | .replace source target =>
    Function.update (Function.update files target (files source)) source none

def ops (files : Files) (os : List FileOp) : Files := os.foldl op files

/-- The files agree, but for one name. -/
def AgreeOff (tmp : String) (files files' : Files) : Prop :=
  ∀ name, name ≠ tmp → files' name = files name

end Files

/-- Where a program that runs some operations may leave the files if it stops. -/
inductive Crash : List FileOp → Files → Files → Prop
  | stop (os : List FileOp) (files : Files) : Crash os files files
  /-- A first part of a text is written. -/
  | torn {name : String} {text piece : List Char} (os : List FileOp) (files : Files)
      (h : piece <+: text) : Crash (.write name text :: os) files (files.op (.write name piece))
  | next {o : FileOp} {os : List FileOp} {files files' : Files}
      (h : Crash os (files.op o) files') : Crash (o :: os) files files'

section Crash

variable {os os' : List FileOp} {files files' : Files}

theorem Crash.nil (h : Crash [] files files') : files' = files := by
  cases h
  rfl

/-- A program that stops does so in its first half or in its second. -/
theorem Crash.append (h : Crash (os ++ os') files files') :
    Crash os files files' ∨ Crash os' (files.ops os) files' := by
  induction os generalizing files with
  | nil => exact Or.inr h
  | cons o os ih =>
    cases h with
    | stop => exact Or.inl (.stop _ _)
    | torn _ _ hpiece => exact Or.inl (.torn _ _ hpiece)
    | next h =>
      rcases ih h with h | h
      · exact Or.inl (.next h)
      · exact Or.inr h

end Crash

/-! ## Replacing a file -/

/-- A text is written under another name, and the file renamed. -/
def atomicWrite (tmp target : String) (text : List Char) : List FileOp :=
  [.create tmp, .write tmp text, .replace tmp target]

section Replacing

variable {tmp target : String} {text : List Char} {files files' : Files}

theorem ops_atomicWrite (hne : tmp ≠ target) : Files.AgreeOff tmp
    (Function.update files target (some text)) (files.ops (atomicWrite tmp target text)) := by
  intro name hname
  have hops : files.ops (atomicWrite tmp target text) =
      Function.update (Function.update ((files.op (.create tmp)).op (.write tmp text)) target
        (some text)) tmp none := by
    simp [Files.ops, atomicWrite, Files.op]
  rw [hops, Function.update_of_ne hname]
  by_cases htarget : name = target
  · subst htarget
    rw [Function.update_self, Function.update_self]
  · rw [Function.update_of_ne htarget, Function.update_of_ne htarget]
    simp [Files.op, Function.update_of_ne hname]

/-- **A file that is replaced is the old one or the new one.** -/
theorem Crash.replaced (hne : tmp ≠ target)
    (h : Crash (atomicWrite tmp target text) files files') :
    Files.AgreeOff tmp files files' ∨
      Files.AgreeOff tmp (Function.update files target (some text)) files' := by
  have hoff : ∀ (o : FileOp) (f : Files), (∃ piece, o = .create tmp ∨ o = .write tmp piece) →
      Files.AgreeOff tmp files f → Files.AgreeOff tmp files (f.op o) := by
    rintro o f ⟨piece, rfl | rfl⟩ hf name hname
    · exact (Function.update_of_ne hname _ _).trans (hf name hname)
    · exact (Function.update_of_ne hname _ _).trans (hf name hname)
  have hcreated := hoff (.create tmp) files ⟨[], Or.inl rfl⟩ fun _ _ => rfl
  cases h with
  | stop => exact Or.inl fun _ _ => rfl
  | next h =>
    cases h with
    | stop => exact Or.inl hcreated
    | torn _ _ hpiece => exact Or.inl (hoff _ _ ⟨_, Or.inr rfl⟩ hcreated)
    | next h =>
      cases h with
      | stop => exact Or.inl (hoff _ _ ⟨_, Or.inr rfl⟩ hcreated)
      | next h =>
        rw [h.nil]
        exact Or.inr (ops_atomicWrite hne)

end Replacing

end Formats
