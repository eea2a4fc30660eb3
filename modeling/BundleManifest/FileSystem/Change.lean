/-
# BundleManifest.FileSystem.Change — making, moving and removing

Every operation either gives the changed file system or a fault, and a fault means that nothing has
changed. `rename` replaces what it finds under the new name, unless that is a directory and the
moved node is none.
-/
import BundleManifest.FileSystem.Read

namespace BundleManifest

namespace FileSystem

/-- A name in a directory, as the end of a path. -/
structure Site where
  directory : Inode
  /-- None if the path ends with `.` or `..` or is a root. -/
  name? : Option Bytes
  deriving DecidableEq, Repr

/-- The directory in which a route ends, and its last segment. -/
def site (fs : FileSystem) (route : Route) : Except FileFault Site := do
  let above : Route := { route with segments := route.segments.dropLast, slashed := false }
  match ← fs.follow true above with
  | .vacancy .. => throw .missing
  | .node directory =>
    match fs.entries? directory with
    | none => throw .notDirectory
    | some _ =>
      let name? := route.segments.getLast?.filter fun s => s != Route.self && s != Route.up
      return ⟨directory, name?⟩

/-- The node under a name of a directory. -/
def occupant (fs : FileSystem) (directory : Inode) (name : Bytes) :
    Except FileFault (Option Inode) :=
  if Route.nameLimit < name.length then .error .nameTooLong
  else .ok ((fs.entries? directory).bind (·.lookup name))

/-- Whether a directory is another one or above it; at most `fuel` steps up are taken. -/
def encloses (fs : FileSystem) (outer : Inode) : Nat → Inode → Bool
  | 0, inner => inner == outer
  | fuel + 1, inner =>
    inner == outer ||
      match fs.node? inner with
      | some (.directory parent _) => parent != inner && encloses fs outer fuel parent
      | _ => false

/-- Makes a node under a name that is not in use. -/
def make (fs : FileSystem) (path : Text) (node : Inode → Node) : Except PathFault FileSystem := do
  match ← fs.locate false path with
  | .node _ => throw (.fault .taken)
  | .vacancy directory name => return fs.addEntry directory name (node directory)

/-- Makes a directory. -/
def makeDirectory (fs : FileSystem) (path : Text) : Except PathFault FileSystem :=
  fs.make path fun above => .directory above []

/-- Writes a file, following links; a file that does not exist yet is made. -/
def write (fs : FileSystem) (path : Text) (content : Bytes) : Except PathFault FileSystem := do
  match ← fs.locate true path with
  | .vacancy directory name => return fs.addEntry directory name (.regular content)
  | .node i =>
    match fs.node? i with
    | some (.directory ..) => throw (.fault .isDirectory)
    | some (.regular _) => return fs.setNode i (.regular content)
    | _ => return fs

/-- Takes a name away, and the node that it named. -/
def unlink (fs : FileSystem) (directory : Inode) (name : Bytes) (i : Inode) : FileSystem :=
  (fs.dropEntry directory name).dropNode i

/-- The file system in which a node has another name; a directory learns what is above it now. -/
def relink (fs : FileSystem) (i : Inode) (fromDirectory : Inode) (fromName : Bytes)
    (toDirectory : Inode) (toName : Bytes) : FileSystem :=
  let fs := fs.dropEntry fromDirectory fromName
  let fs := match fs.node? i with
    | some (.directory _ entries) => fs.setNode i (.directory toDirectory entries)
    | _ => fs
  fs.mapEntries toDirectory fun entries => entries ++ [(toName, i)]

/-- Gives a node another name. The node that had this name before is removed. If a slash was
written after one of the names the node has to be a directory. -/
def move (fs : FileSystem) (slashed : Bool) (fromDirectory : Inode) (fromName : Bytes)
    (toDirectory : Inode) (toName : Bytes) : Except FileFault FileSystem := do
  let some i ← fs.occupant fromDirectory fromName | throw .missing
  let replaced? ← fs.occupant toDirectory toName
  if slashed && fs.kind? i != some .directory then throw .notDirectory
  -- no directory can be put below itself
  let depth := fs.nodes.length
  if fs.encloses i depth toDirectory then throw .invalid
  let renamed (fs : FileSystem) := fs.relink i fromDirectory fromName toDirectory toName
  match replaced? with
  | none => return renamed fs
  | some j =>
    if j = i then return fs
    -- nor can it replace one that it lies in
    if fs.encloses j depth fromDirectory then throw .notEmpty
    match fs.kind? i, fs.entries? j with
    | some .directory, none => throw .notDirectory
    | some .directory, some (_ :: _) => throw .notEmpty
    | some .directory, some [] => return renamed (fs.unlink toDirectory toName j)
    | _, some _ => throw .isDirectory
    | _, none => return renamed (fs.unlink toDirectory toName j)

/-- Gives the node that a path names another path. -/
def rename (fs : FileSystem) (source target : Text) : Except PathFault FileSystem := do
  let sourceRoute ← Route.ofText source
  let targetRoute ← Route.ofText target
  let before ← (fs.site sourceRoute).mapError .fault
  let after ← (fs.site targetRoute).mapError .fault
  match before.name?, after.name? with
  | some fromName, some toName =>
    let slashed := sourceRoute.slashed || targetRoute.slashed
    (fs.move slashed before.directory fromName after.directory toName).mapError .fault
  | _, _ => throw (.fault .busy)

/-- The numbers of the nodes in and below some nodes, down to a depth. -/
def below (fs : FileSystem) : Nat → List Inode → List Inode
  | 0, nodes => nodes
  | depth + 1, nodes =>
    nodes ++ below fs depth (nodes.flatMap fun i => ((fs.entries? i).getD []).map (·.2))

/-- Removes what a path names, with everything in it. After a slash it has to be a directory. -/
def remove (fs : FileSystem) (path : Text) : Except PathFault FileSystem := do
  let route ← Route.ofText path
  let place ← (fs.site route).mapError .fault
  let some name := place.name? | throw (.fault .invalid)
  let some i ← (fs.occupant place.directory name).mapError .fault | throw (.fault .missing)
  if route.slashed && fs.kind? i != some .directory then throw (.fault .notDirectory)
  -- no chain of directories is longer than there are nodes
  let gone := fs.below fs.nodes.length [i]
  let fs := fs.dropEntry place.directory name
  return { fs with nodes := fs.nodes.filter fun e => !gone.contains e.1 }

/-! ## Directories above a file -/

/-- Makes those of the directories that do not exist yet, each inside the one before. -/
def makeEach (fs : FileSystem) : List Text → Except (FileFault × Text) FileSystem
  | [] => .ok fs
  | path :: paths =>
    match fs.stat path with
    | .ok i => if paths = [] && fs.kind? i != some .directory then .error (.taken, path)
      else makeEach fs paths
    | .error _ =>
      match fs.makeDirectory path with
      | .ok fs => makeEach fs paths
      | .error (.fault fault) => .error (fault, path)
      | .error _ => .error (.invalid, path)

/-- The paths that lead down to a path, itself included. -/
def steps (p : Path) : List Text :=
  (List.range p.parts.length).map fun n => (⟨p.anchor, p.parts.take (n + 1)⟩ : Path).text

/-- Makes a directory and those above it, as far as they do not exist yet. -/
def makeDirectories (fs : FileSystem) (p : Path) : Except (FileFault × Text) FileSystem :=
  fs.makeEach (steps p)

end FileSystem

end BundleManifest
