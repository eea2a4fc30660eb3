/-
# BundleManifest.FileSystem.Lookup — from a path to a node

A path is encoded and cut at its slashes, and the pieces are looked up one after the other. A
symbolic link on the way is replaced by its target; at most `linkLimit` links are followed, so that
a path through a circle of links is refused. `locate` finds the node that a path names, or the place
where it could be made, and `stat` asks for the node itself.
-/
import BundleManifest.FileSystem.Basic
import BundleManifest.FileSystem.Fault

namespace BundleManifest

/-- A path as the operating system sees it. -/
structure Route where
  absolute : Bool
  segments : List Bytes
  /-- Whether it ends with a slash, which asks for a directory. -/
  slashed : Bool
  deriving DecidableEq, Repr

namespace Route

/-- The byte that separates segments. -/
def slash : UInt8 := 0x2F

/-- The segment that names the directory itself. -/
def self : Bytes := [0x2E]

/-- The segment that names the directory above. -/
def up : Bytes := [0x2E, 0x2E]

/-- The longest path, in bytes. -/
def lengthLimit : Nat := 4095

/-- The longest name, in bytes. -/
def nameLimit : Nat := 255

/-- The segments of a path. -/
def ofBytes (bytes : Bytes) : Route where
  absolute := bytes.head? == some slash
  segments := (cut slash bytes).filter (· != [])
  slashed := bytes.getLast? == some slash

/-- What is looked up on a route: its segments, and `.` after a slash at the end. -/
def steps (r : Route) : List Bytes := r.segments ++ (if r.slashed then [self] else [])

/-- The segments of a path that is given as a text, if the operating system takes it. -/
def ofText (t : Text) : Except PathFault Route :=
  match Utf8.encode t with
  | .error u => .error (.unencodable u)
  | .ok bytes =>
    if bytes.contains 0 then .error .embeddedNull
    else if bytes = [] then .error (.fault .missing)
    else if lengthLimit < bytes.length then .error (.fault .nameTooLong)
    else .ok (ofBytes bytes)

end Route

/-- Where looking up segments ends. -/
inductive Arrival where
  /-- At a node. -/
  | node (i : Inode)
  /-- At a name that a directory does not have. -/
  | vacancy (directory : Inode) (name : Bytes)
  /-- At a link of a directory, with the segments that come after it. -/
  | link (directory : Inode) (target : Bytes) (rest : List Bytes)
  deriving DecidableEq, Repr

/-- What a path names: a node, or a name that could be made in a directory. -/
inductive Place where
  | node (i : Inode)
  | vacancy (directory : Inode) (name : Bytes)
  deriving DecidableEq, Repr

namespace FileSystem

/-- The most links that are followed for one path. -/
def linkLimit : Nat := 40

/-- Looks up segments until the first link that has to be followed. A link at the very end is
followed only when asked for. -/
def advance (fs : FileSystem) (followLast : Bool) (current : Inode) :
    List Bytes → Except FileFault Arrival
  | [] => .ok (.node current)
  | segment :: rest =>
    match fs.node? current with
    | some (.directory parent entries) =>
      if segment = Route.self then advance fs followLast current rest
      else if segment = Route.up then advance fs followLast parent rest
      else if Route.nameLimit < segment.length then .error .nameTooLong
      else match entries.lookup segment with
        -- a name can be made only where the path ends with it
        | none => if rest = [] then .ok (.vacancy current segment) else .error .missing
        | some i =>
          match fs.node? i with
          | some (.link target) =>
            if rest = [] && !followLast then .ok (.node i) else .ok (.link current target rest)
          | _ => advance fs followLast i rest
    | some _ => .error .notDirectory
    | none => .error .missing

/-- Looks up segments, following at most `links` links. -/
def locateFrom (fs : FileSystem) (followLast : Bool) :
    Nat → Inode → List Bytes → Except FileFault Place
  | links, current, segments =>
    match fs.advance followLast current segments with
    | .error fault => .error fault
    | .ok (.node i) => .ok (.node i)
    | .ok (.vacancy directory name) => .ok (.vacancy directory name)
    | .ok (.link directory target rest) =>
      match links with
      | 0 => .error .tooManyLinks
      | links + 1 =>
        -- a relative target starts in the directory of the link
        let route := Route.ofBytes target
        locateFrom fs followLast links (if route.absolute then rootInode else directory)
          (route.steps ++ rest)

/-- What a route leads to. -/
def follow (fs : FileSystem) (followLast : Bool) (route : Route) : Except FileFault Place :=
  fs.locateFrom followLast linkLimit (if route.absolute then rootInode else fs.here) route.steps

/-- What a path names. A link at its end is followed only when asked for. -/
def locate (fs : FileSystem) (followLast : Bool) (path : Text) : Except PathFault Place := do
  let route ← Route.ofText path
  (fs.follow followLast route).mapError .fault

/-- The node that a path names. -/
def find (fs : FileSystem) (followLast : Bool) (path : Text) : Except PathFault Inode := do
  match ← fs.locate followLast path with
  | .node i => return i
  | .vacancy .. => throw (.fault .missing)

/-- The node that a path leads to, links followed. -/
def stat (fs : FileSystem) (path : Text) : Except PathFault Inode := fs.find true path

/-- The node that a path names, which may be a link. -/
def lstat (fs : FileSystem) (path : Text) : Except PathFault Inode := fs.find false path

/-- The faults that mean that a path names nothing, as opposed to faults in asking. -/
def meansAbsent : FileFault → Bool
  | .missing | .notDirectory | .tooManyLinks => true
  | _ => false

/-- The kind of node that a path leads to; none if it leads nowhere. Faults in asking are passed
on. -/
def probe (fs : FileSystem) (path : Text) : Except FileFault (Option NodeKind) :=
  match fs.stat path with
  | .ok i => .ok (fs.kind? i)
  | .error (.fault fault) => if meansAbsent fault then .ok none else .error fault
  | .error .embeddedNull | .error (.unencodable _) => .ok none

end FileSystem

end BundleManifest
