/-
# BundleManifest.FileSystem.Read — contents of files and directories

Reading never changes a file system. Pipes and devices hold nothing to read.
-/
import BundleManifest.FileSystem.Lookup

namespace BundleManifest

/-- A name that a directory lists, with the kind of node that it names. -/
structure DirectoryEntry where
  name : Text
  kind : NodeKind
  deriving DecidableEq, Repr

namespace FileSystem

/-- What a path holds, links followed. -/
def read (fs : FileSystem) (path : Text) : Except PathFault Bytes := do
  let i ← fs.stat path
  match fs.node? i with
  | some (.regular content) => return content
  | some (.directory ..) => throw (.fault .isDirectory)
  | some _ => return []
  | none => throw (.fault .missing)

/-- What a directory lists. -/
def listing (fs : FileSystem) (entries : List (Bytes × Inode)) : List DirectoryEntry :=
  entries.filterMap fun (name, i) => (fs.kind? i).map fun kind => ⟨Utf8.decode name, kind⟩

/-- What the directory that a path leads to lists. -/
def scan (fs : FileSystem) (path : Text) : Except PathFault (List DirectoryEntry) := do
  let i ← fs.stat path
  match fs.entries? i with
  | some entries => return fs.listing entries
  | none => throw (.fault .notDirectory)

/-- The target of the link that a path names; none if it names no link. -/
def linkTarget? (fs : FileSystem) (path : Text) : Except PathFault (Option Text) := do
  match fs.lstat path with
  | .ok i =>
    match fs.node? i with
    | some (.link target) => return some (Utf8.decode target)
    | _ => return none
  | .error (.fault _) => return none
  | .error fault => throw fault

/-- Everything below a directory down to a depth, as paths that start with `leading`. Links are
listed and not entered. -/
def contentsBelow (fs : FileSystem) : Nat → Text → Inode → List (Text × NodeKind)
  | 0, _, _ => []
  | depth + 1, leading, directory =>
    ((fs.entries? directory).getD []).flatMap fun (name, i) =>
      let path := leading ++ Utf8.decode name
      match fs.kind? i with
      | none => []
      | some kind => (path, kind) :: contentsBelow fs depth (path ++ "/") i

/-- Everything below the directory that a path leads to. -/
def contents (fs : FileSystem) (path : Text) : Except PathFault (List (Text × NodeKind)) := do
  let i ← fs.stat path
  if fs.kind? i != some .directory then throw (.fault .notDirectory)
  return fs.contentsBelow fs.nodes.length [] i

/-- The file system with another working directory. -/
def enter (fs : FileSystem) (p : Path) : Except PathFault FileSystem := do
  let i ← fs.stat p.text
  return { fs with here := i, herePath := fs.herePath.join p }

end FileSystem

end BundleManifest
