/-
# BundleManifest.Walk.Order — the entries of one directory that a walk visits

`visitable` keeps what a walk can hand out or enter: regular files and directories, and, when links
are followed, links to either. It reports links that lead into a circle. The rest is left out.
An entry whose path the operating system cannot even be asked about refuses the whole directory.
`sorted` puts the entries in the order in which they are visited. A directory sorts as its name with
a slash, so that the paths of all files below come out in code point order.
-/
import BundleManifest.Text.Order
import BundleManifest.Walk.Basic

namespace BundleManifest.Walk

/-- An entry of a directory that a walk visits. -/
structure Item where
  name : Text
  isDirectory : Bool
  isLink : Bool
  deriving DecidableEq, Repr

namespace Item

/-- What items are ordered by. -/
def key (i : Item) : Text := if i.isDirectory then i.name ++ "/" else i.name

end Item

/-- The path of an entry of a directory. -/
def entryPath (directory name : Text) : Text :=
  if directory.getLast? = some (CodePoint.ofChar '/') then directory ++ name
  else directory ++ "/" ++ name

/-- What a walk makes of one entry: an item, a notice, or nothing. An entry that cannot be asked
about ends the walk. -/
inductive Sighting where
  | item (i : Item)
  | notice (n : Notice)
  | nothing
  | refusal (f : Failure)
  deriving Repr

/-- What a walk makes of an entry of a directory. -/
def sight (fs : FileSystem) (followLinks : Bool) (directory : Text) (entry : DirectoryEntry) :
    Sighting :=
  let ofKind (isLink : Bool) : Option NodeKind → Sighting
    | some .directory => .item ⟨entry.name, true, isLink⟩
    | some .regular => .item ⟨entry.name, false, isLink⟩
    | _ => .nothing
  match entry.kind with
  | .link =>
    if !followLinks then .nothing
    else
      let path := entryPath directory entry.name
      match fs.stat path with
      | .ok i => ofKind true (fs.kind? i)
      -- a link that leads nowhere is passed over without a word
      | .error (.fault .missing) => .nothing
      | .error (.fault fault) => .notice (.walkEntrySkipped path (fault.report [path]))
      | .error fault => .refusal (Failure.ofPath fault path)
  | kind => ofKind false (some kind)

/-- The items among the entries of a directory, in the order of the entries. -/
def visitable (sightings : List Sighting) : List Item :=
  sightings.filterMap fun
    | .item i => some i
    | _ => none

/-- What there is to report about the entries of a directory, up to the first that ends the walk. -/
def reported : List Sighting → List Event
  | [] => []
  | .notice n :: sightings => .note n :: reported sightings
  | .refusal _ :: _ => []
  | _ :: sightings => reported sightings

/-- Why an entry of a directory ends the walk, if one does. -/
def refused? (sightings : List Sighting) : Option Halt :=
  sightings.findSome? fun
    | .refusal f => some (.failed f)
    | _ => none

/-- Items in the order in which they are visited. -/
def sorted (items : List Item) : List Item := items.mergeSort fun a b => Text.le a.key b.key

end BundleManifest.Walk
