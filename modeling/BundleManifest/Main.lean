/-
# BundleManifest.Main — the program on a real disk

The program looks at the files that its arguments may concern, runs the command on what it has
seen, and carries out what the command leaves behind: the files that it wrote, its output and its
exit code. Of a regular file only the presence matters, unless it holds rules or the configuration.
-/
import BundleManifest.CommandLine.JsonLine
import BundleManifest.CommandLine.Program

namespace BundleManifest.CommandLine

/-- A text for the outside; surrogates are replaced. -/
def shownOutside (t : Text) : String :=
  String.ofList (t.map fun c => if c.isSurrogate then '\ufffd' else Char.ofNat c.val)

/-- The bytes of a text from the outside. -/
def bytesOutside (s : String) : Bytes := s.toUTF8.toList

/-- Whether the content of a file with this name matters. -/
def contentMatters (name : String) : Bool :=
  [RuleSet.basicFile, RuleSet.patternFile, Config.fileName].contains (Text.ofString name)

/-- The file system with a directory and those above it; unchanged if they cannot be made. -/
def withDirectory (fs : FileSystem) (path : Text) : FileSystem :=
  match fs.makeDirectories (Path.ofText path) with
  | .ok made => made
  | .error _ => fs

/-- The file system with one more node; unchanged if it cannot be made. -/
def withNode (fs : FileSystem) (path : Text) (node : Node) : FileSystem :=
  match fs.make path fun _ => node with
  | .ok made => made
  | .error _ => fs

/-- Adds what lies at an absolute path of the disk, and everything below. -/
partial def look (fs : FileSystem) (path name : String) : IO FileSystem := do
  if (fs.lstat path).toOption.isSome && (fs.contents path).toOption.any (· != []) then return fs
  let place ← IO.FS.realPath path
  let parent := withDirectory fs (Path.ofText path).parent.text
  let target := place.toString
  if target != path && (Path.ofText target) != Path.ofText path then
    let linked := withNode parent path (.link (bytesOutside target))
    look linked target name
  else if ← place.isDir then
    let mut seen := withDirectory parent path
    for entry in ← place.readDir do
      seen ← try look seen entry.path.toString entry.fileName catch _ => pure seen
    return seen
  else
    let content ← if contentMatters name then IO.FS.readBinFile path else pure ByteArray.empty
    return withNode parent path (.regular content.toList)

/-- Adds what lies at a path, or at least the directory in which it would lie. -/
def lookAround (fs : FileSystem) (path : Text) : IO FileSystem := do
  let absolute := fs.herePath.join (Path.ofText path)
  let name := shownOutside absolute.name
  try look fs (shownOutside absolute.text) name
  catch _ =>
    let above := shownOutside absolute.parent.text
    let exists? ← try (do let p ← IO.FS.realPath above; p.isDir) catch _ => pure false
    return if exists? then withDirectory fs absolute.parent.text else fs

/-- Writes the files that a command has made to the disk. -/
def carryOut (before after : FileSystem) : IO Unit := do
  for (path, kind) in (after.contents "/").toOption.getD [] do
    let path := "/" ++ path
    if kind = .regular && (after.lstat path).toOption != (before.lstat path).toOption then
      let content := (after.read path).toOption.getD []
      let temporary := shownOutside (path ++ ".new")
      IO.FS.writeBinFile temporary ⟨content.toArray⟩
      IO.FS.rename temporary (shownOutside path)

/-- The setting that the environment gives under a name. -/
def setting (name : String) : IO Text := do return ((← IO.getEnv name).getD "" : String)

end BundleManifest.CommandLine

open BundleManifest CommandLine in
/-- The program: it runs on a copy of the files that it is asked about. -/
def main (arguments : List String) : IO UInt32 := do
  let here : Text := (← IO.currentDir).toString
  let environment : Environment :=
    ⟨← setting "DEPLOYBUNDLE_DEBUG", ← setting "DEPLOYBUNDLE_WORKERS"⟩
  let given := arguments.map Text.ofString
  let start := withDirectory FileSystem.empty here
  let mut files := (start.enter (Path.ofText here)).toOption.getD start
  let places := Text.dot :: given.filter fun t => !Arguments.isOption t
  for place in places do
    files ← lookAround files place
  for place in places do
    if let .ok config := Config.load files (some place) environment [] then
      if let some path := config.manifestPath then
        files ← lookAround files path
  let effect := run files programName environment given
  carryOut files effect.files
  for entry in effect.log do
    IO.eprint (shownOutside (jsonLine entry))
  IO.print (shownOutside effect.output)
  IO.eprint (shownOutside effect.errors)
  match effect.exit with
  | .ok code => return code.toUInt32
  | .error f =>
    IO.eprintln (shownOutside f.message)
    return 1
