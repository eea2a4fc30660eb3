/-
# BundleManifest.Walk.Basic — the runs of a walk

A walk visits the files below a directory and hands them out one at a time. Between two files the
world may change: whoever receives the files reacts to each one, and the walk goes on in the world
that the reaction leaves. A `Run` is what a part of a walk did: its trace, the state it left, and
why the walk ended there, if it did. Runs are put one after the other by `Run.andThen`.
-/
import BundleManifest.Cancellation
import BundleManifest.Candidate
import BundleManifest.Failure
import BundleManifest.FileSystem.Read
import BundleManifest.Notice

namespace BundleManifest

/-- What a walk depends on and others may change. -/
structure World where
  files : FileSystem
  token : CancellationToken := {}

namespace Walk

/-- One step of a walk that can be seen. -/
inductive Event where
  /-- A file is handed out. -/
  | file (c : Candidate)
  | note (n : Notice)
  /-- A directory is about to be listed: its path, its number, and whether it was reached through
  a link. -/
  | entered (path : Text) (directory : Inode) (throughLink : Bool)
  deriving Repr

/-- Why a walk ends before it is complete. -/
inductive Halt where
  /-- No more files are wanted. -/
  | enough
  | failed (f : Failure)
  deriving Repr

/-- What becomes of the world when a file has been handed out. -/
structure Reaction where
  world : World
  halt : Option Halt := none

/-- How the `n`-th file is received, counted from one. -/
abbrev Receiver := Nat → World → Reaction

namespace Receiver

/-- Receives every file and changes nothing. -/
def passive : Receiver := fun _ world => { world }

end Receiver

/-- How a walk is made. -/
structure Options where
  followLinks : Bool := true
  /-- The token is looked at once in this many entries of a directory. -/
  batchSize : Nat := 256
  deriving DecidableEq, Repr

/-- What a walk knows between two steps. -/
structure State where
  world : World
  /-- The directories that have been entered. -/
  visited : List Inode
  /-- The number of files handed out. -/
  count : Nat

/-- What a part of a walk did. -/
structure Run where
  trace : List Event
  state : State
  halt : Option Halt

namespace Run

/-- A run that does nothing. -/
def skip (s : State) : Run := ⟨[], s, none⟩

/-- A run that only reports something. -/
def note (n : Notice) (s : State) : Run := ⟨[.note n], s, none⟩

/-- A run that ends the walk. -/
def fail (f : Failure) (s : State) : Run := ⟨[], s, some (.failed f)⟩

/-- One run and then another, unless the first ends the walk. -/
def andThen (first : Run) (next : State → Run) : Run :=
  match first.halt with
  | some _ => first
  | none =>
    let second := next first.state
    { second with trace := first.trace ++ second.trace }

/-- The paths of the files that were handed out. -/
def files (r : Run) : List Text :=
  r.trace.filterMap fun
    | .file c => some c.path
    | _ => none

/-- The candidates that were handed out. -/
def candidates (r : Run) : List Candidate :=
  r.trace.filterMap fun
    | .file c => some c
    | _ => none

/-- What was reported. -/
def notices (r : Run) : List Notice :=
  r.trace.filterMap fun
    | .note n => some n
    | _ => none

/-! ## Runs in sequence -/

theorem andThen_of_halt {first : Run} {halt : Halt} (h : first.halt = some halt)
    (next : State → Run) : first.andThen next = first := by
  simp [andThen, h]

theorem andThen_of_not_halt {first : Run} (h : first.halt = none) (next : State → Run) :
    first.andThen next
      = { next first.state with trace := first.trace ++ (next first.state).trace } := by
  simp [andThen, h]

@[simp] theorem skip_andThen (s : State) (next : State → Run) : (skip s).andThen next = next s := by
  simp [andThen, skip]

/-- Runs may be put one after the other in either grouping. -/
theorem andThen_assoc (first : Run) (second third : State → Run) :
    (first.andThen second).andThen third = first.andThen fun s => (second s).andThen third := by
  cases h : first.halt with
  | some halt => simp [andThen_of_halt h]
  | none =>
    rw [andThen_of_not_halt h, andThen_of_not_halt h]
    cases hs : (second first.state).halt with
    | some halt => simp [andThen, hs]
    | none => simp [andThen, hs]

@[simp] theorem files_skip (s : State) : (skip s).files = [] := rfl

@[simp] theorem files_note (n : Notice) (s : State) : (note n s).files = [] := rfl

@[simp] theorem files_fail (f : Failure) (s : State) : (fail f s).files = [] := rfl

/-- The files of a sequence are those of its parts, as far as the walk goes on. -/
theorem files_andThen (first : Run) (next : State → Run) :
    (first.andThen next).files
      = first.files ++ (if first.halt.isNone then (next first.state).files else []) := by
  cases h : first.halt with
  | some halt => simp [andThen_of_halt h]
  | none => simp [andThen_of_not_halt h, files]

/-- The notices of a sequence are those of its parts, as far as the walk goes on. -/
theorem notices_andThen (first : Run) (next : State → Run) :
    (first.andThen next).notices
      = first.notices ++ (if first.halt.isNone then (next first.state).notices else []) := by
  cases h : first.halt with
  | some halt => simp [andThen_of_halt h]
  | none => simp [andThen_of_not_halt h, notices]

/-- A path is handed out with the candidate that it belongs to. -/
theorem files_eq_map_candidates (r : Run) : r.files = r.candidates.map Candidate.path := by
  simp only [files, candidates, List.map_filterMap]
  congr 1
  funext e
  cases e <;> rfl

end Run

end Walk

end BundleManifest
