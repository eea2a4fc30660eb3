/-
# BundleManifest.Walk.Traversal — visiting every file below a directory

The walk is depth first. A directory is listed once, when it is entered, and its items are then
visited in order: a file is handed out, a directory is entered. A real directory is always entered,
and a link to a directory only if that directory has not been entered before. Every level makes the
path longer, so the limit on the length of paths bounds the depth of the walk.
-/
import BundleManifest.Walk.Order

namespace BundleManifest.Walk

/-- The token is looked at: a cancelled one ends the walk. -/
def checkpoint (s : State) : Run :=
  match s.world.token.check with
  | some message => Run.fail (.bundle (.cancelled message)) s
  | none => Run.skip s

/-- A file is handed out. -/
def handOut (receive : Receiver) (path : Text) (s : State) : Run :=
  let reaction := receive (s.count + 1) s.world
  { trace := [.file ⟨path, Text.split '/' path⟩]
    state := { s with world := reaction.world, count := s.count + 1 }
    halt := reaction.halt }

/-- What is said about a directory that is gone when it is to be entered. -/
def vanished : Text := "stat failed"

/-- An item is visited. `enter` visits a directory, given its path, its path below the root of the
walk, its number and whether it was reached through a link. -/
def visit (receive : Receiver) (enter : Text → Text → Inode → Bool → State → Run)
    (directory leading : Text) (item : Item) (s : State) : Run :=
  let below := leading ++ item.name
  if !item.isDirectory then handOut receive below s
  else
    let path := entryPath directory item.name
    match s.world.files.stat path with
    | .error (.fault _) => Run.note (.walkEntrySkipped path vanished) s
    | .error fault => Run.fail (Failure.ofPath fault path) s
    | .ok i =>
      -- a real directory is entered even if a link has led to it before
      if s.visited.contains i && item.isLink then Run.note (.walkLinkRevisit path) s
      else enter path (below ++ "/") i item.isLink { s with visited := i :: s.visited }

/-- Items are visited one after the other. The token is looked at whenever the number of items
visited before is a multiple of the batch size. -/
def visitAll (options : Options) (receive : Receiver)
    (enter : Text → Text → Inode → Bool → State → Run) (directory leading : Text) :
    Nat → List Item → State → Run
  | _, [], s => Run.skip s
  | index, item :: items, s =>
    let due := index ≠ 0 && index % options.batchSize = 0
    let start := if due then checkpoint s else Run.skip s
    (start.andThen (visit receive enter directory leading item)).andThen
      (visitAll options receive enter directory leading (index + 1) items)

/-- Visits a directory and everything below, down to a depth. -/
def enter (options : Options) (receive : Receiver) :
    Nat → Text → Text → Inode → Bool → State → Run
  | 0, _, _, _, _, s => Run.skip s
  | depth + 1, path, leading, directory, throughLink, s =>
    (checkpoint s).andThen fun s =>
      match s.world.files.scan path with
      | .error (.fault fault) =>
        Run.note (.walkDirectoryUnreadable path (fault.report [path])) s
      | .error fault => Run.fail (Failure.ofPath fault path) s
      | .ok entries =>
        let sightings := entries.map (sight s.world.files options.followLinks path)
        let start : Run :=
          ⟨.entered path directory throughLink :: reported sightings, s, refused? sightings⟩
        start.andThen
          (visitAll options receive (enter options receive depth) path leading 0
            (sorted (visitable sightings)))

/-- More levels than a path can have. -/
def depthLimit : Nat := Route.lengthLimit + 1

/-- Visits every file below a root. -/
def traverse (options : Options) (receive : Receiver) (root : Path) (world : World) : Run :=
  let start : State := ⟨world, [], 0⟩
  match world.files.stat root.text with
  | .error (.fault _) => Run.note (.walkRootUnreadable root.text) start
  | .error fault => Run.fail (Failure.ofPath fault root.text) start
  | .ok i => enter options receive depthLimit root.text [] i false { start with visited := [i] }

end BundleManifest.Walk
