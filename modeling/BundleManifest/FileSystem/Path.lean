/-
# BundleManifest.FileSystem.Path — paths in normal form

A path is relative or starts at the root, and has parts. Reading a path drops repeated slashes, a
slash at the end and parts that are a single point, and keeps `..`, because a link may lie before
it. Exactly two leading slashes are a root of their own. The path without parts is written `.`.
-/
import BundleManifest.Text.Basic

namespace BundleManifest

/-- Where a path starts. -/
inductive Anchor where
  /-- At the working directory. -/
  | here
  /-- At the root. -/
  | root
  /-- At the root that two slashes denote. -/
  | doubleRoot
  deriving DecidableEq, Repr

/-- A path in normal form. -/
structure Path where
  anchor : Anchor
  parts : List Text
  deriving DecidableEq, Repr

namespace Anchor

/-- The slashes that an anchor is written with. -/
def text : Anchor → Text
  | here => []
  | root => "/"
  | doubleRoot => "//"

/-- The anchor of a path. -/
def ofText (t : Text) : Anchor :=
  match (t.takeWhile (· = CodePoint.ofChar '/')).length with
  | 0 => here
  | 2 => doubleRoot
  | _ => root

end Anchor

namespace Path

/-- The parts of a path: what stands between slashes, without empty pieces and single points. -/
def partsOf (t : Text) : List Text := (Text.split '/' t).filter fun s => s != [] && s != Text.dot

/-- The path that a text names. -/
def ofText (t : Text) : Path := ⟨Anchor.ofText t, partsOf t⟩

/-- A path as text. -/
def text (p : Path) : Text :=
  match p.anchor, p.parts with
  | .here, [] => Text.dot
  | anchor, parts => anchor.text ++ Text.join '/' parts

/-- Whether a path starts at a root. -/
def isAbsolute (p : Path) : Bool := p.anchor != .here

/-- The second path, taken as starting at the first. -/
def join (p q : Path) : Path := if q.isAbsolute then q else ⟨p.anchor, p.parts ++ q.parts⟩

/-- The path with one more part. -/
def child (p : Path) (name : Text) : Path := ⟨p.anchor, p.parts ++ [name]⟩

/-- The path without its last part. -/
def parent (p : Path) : Path := ⟨p.anchor, p.parts.dropLast⟩

/-- The last part; empty when there is none. -/
def name (p : Path) : Text := p.parts.getLastD []

/-- One step of `collapse`: a part `..` takes back the part before it, if that names something. -/
def collapseStep (absolute : Bool) (parts : List Text) (part : Text) : List Text :=
  if part = Text.dotdot then
    match parts.getLast? with
    | none => if absolute then [] else [part]
    | some last => if last = Text.dotdot then parts ++ [part] else parts.dropLast
  else parts ++ [part]

/-- The path without `..`, as far as that can be had without looking at any file. -/
def collapse (p : Path) : Path := ⟨p.anchor, p.parts.foldl (collapseStep p.isAbsolute) []⟩

/-- The path relative to a directory that it starts with. -/
def below? (p directory : Path) : Option Path :=
  if p.anchor = directory.anchor && directory.parts.isPrefixOf p.parts then
    some ⟨.here, p.parts.drop directory.parts.length⟩
  else none

end Path

end BundleManifest
