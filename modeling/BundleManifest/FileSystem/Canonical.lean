/-
# BundleManifest.FileSystem.Canonical — paths without links

`canonical` replaces every link on a path by its target, one part after the other, as far as the
path exists; parts that name nothing are kept as they are. A link that leads back to itself cannot
be replaced: the path is then left as it is from there on, and `resolved` reports the circle.
-/
import BundleManifest.FileSystem.Read

namespace BundleManifest

namespace FileSystem

/-- A path on which links are being replaced. -/
structure Unfolding where
  path : Path
  /-- The links met so far, with the paths that they lead to; none while a link is being
  replaced. -/
  seen : List (Text × Option Path)
  /-- Whether every link could be replaced. -/
  finished : Bool

/-- The path above, where `..` above a part that is itself `..` leads further up. -/
def above (p : Path) : Path :=
  match p.parts.getLast? with
  | none => if p.isAbsolute then p else p.child Text.dotdot
  | some last => if last = Text.dotdot then p.child Text.dotdot else p.parent

/-- The path with the pieces that are left, as they are. -/
def withRest (p : Path) (pieces : List Text) : Path := p.join (Path.ofText (Text.join '/' pieces))

/-- Follows the pieces of a path. A link is replaced by what `enter` makes of its target. -/
def unfoldPieces (fs : FileSystem)
    (enter : Unfolding → Text → Except PathFault Unfolding) :
    Unfolding → List Text → Except PathFault Unfolding
  | u, [] => .ok u
  | u, piece :: pieces =>
    if piece = [] || piece = Text.dot then unfoldPieces fs enter u pieces
    else if piece = Text.dotdot then unfoldPieces fs enter { u with path := above u.path } pieces
    else do
      let next := u.path.child piece
      match ← fs.linkTarget? next.text with
      | none => unfoldPieces fs enter { u with path := next } pieces
      | some target =>
        match u.seen.lookup next.text with
        | some (some path) => unfoldPieces fs enter { u with path } pieces
        -- the link is met again while it is being replaced
        | some none => return { u with path := withRest next pieces, finished := false }
        | none =>
          let inner ← enter { u with seen := (next.text, none) :: u.seen } target
          if inner.finished then
            unfoldPieces fs enter
              { inner with seen := (next.text, some inner.path) :: inner.seen } pieces
          else return { inner with path := withRest inner.path pieces }

/-- Follows a path that starts where `u` has arrived. Links inside links are replaced down to a
depth. -/
def unfold (fs : FileSystem) : Nat → Unfolding → Text → Except PathFault Unfolding
  | 0, u, t => .ok { u with path := u.path.join (Path.ofText t), finished := false }
  | depth + 1, u, t =>
    -- an absolute target starts anew
    let start := if t.head? = some (CodePoint.ofChar '/') then ⟨.root, []⟩ else u.path
    unfoldPieces fs (unfold fs depth) { u with path := start } (Text.split '/' t)

/-- The depth to which links inside links are replaced. -/
def unfoldDepth : Nat := 1000

/-- The absolute path without `..`; links are not looked at. -/
def absolute (fs : FileSystem) (p : Path) : Path := (fs.herePath.join p).collapse

/-- The absolute path without links. -/
def canonical (fs : FileSystem) (p : Path) : Except PathFault Path := do
  let u ← fs.unfold unfoldDepth ⟨⟨.here, []⟩, [], true⟩ p.text
  return fs.absolute u.path

/-- What is left of a path when its links are replaced. -/
inductive Resolution where
  | path (p : Path)
  /-- The path runs in a circle of links. -/
  | circle (p : Path)
  /-- The path cannot be asked for. -/
  | unusable
  deriving DecidableEq, Repr

/-- Replaces the links of a path and looks whether one of them leads back to itself. -/
def resolved (fs : FileSystem) (p : Path) : Resolution :=
  match fs.canonical p with
  | .error _ => .unusable
  | .ok q =>
    match fs.stat q.text with
    | .error (.fault .tooManyLinks) => .circle q
    | .error .embeddedNull | .error (.unencodable _) => .unusable
    | _ => .path q

end FileSystem

end BundleManifest
