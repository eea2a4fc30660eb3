/-
# BundleManifest.Manifest.File — manifests on disk

A manifest file holds one path per line, and every line is ended. `write` puts the text into a
temporary file beside the place where the manifest belongs and then renames it, so that a manifest
is either complete or not there at all; when anything fails the temporary file is taken away again.
`read` gives the paths back.
-/
import BundleManifest.Failure
import BundleManifest.FileSystem.Canonical
import BundleManifest.FileSystem.Change
import BundleManifest.Notice

namespace BundleManifest

/-- What an operation leaves behind: the file system, what was reported, and the result. -/
structure Outcome (α : Type) where
  files : FileSystem
  notices : List Notice
  result : Except Failure α

namespace Manifest

/-- The code point that ends a line. -/
def lineEnd : CodePoint := '\n'

/-- The text of a manifest. -/
def text (files : List Text) : Text := files.flatMap fun name => name ++ [lineEnd]

@[simp] theorem text_nil : text [] = [] := rfl

@[simp] theorem text_cons (name : Text) (files : List Text) :
    text (name :: files) = name ++ lineEnd :: text files := by
  simp [text]

theorem text_append (files others : List Text) :
    text (files ++ others) = text files ++ text others := by
  simp [text]

/-- The paths in the text of a manifest. The last line need not be ended. -/
def paths (t : Text) : List Text :=
  if t = [] then []
  else
    let lines := Text.split lineEnd t
    -- after the last line break there is no line
    if lines.getLast? = some [] then lines.dropLast else lines

/-- Reads a manifest. -/
def read (fs : FileSystem) (path : Path) : Except Failure (List Text) :=
  match fs.read path.text with
  | .ok bytes => .ok (paths (Utf8.decode bytes))
  | .error (.fault fault) =>
    .error (.bundle (.readFailed path.text (fault.report [path.text])))
  | .error fault => .error (Failure.ofPath fault path.text)

/-! ## Writing -/

/-- The name of the `n`-th temporary file for a manifest. -/
def temporaryName (name : Text) (n : Nat) : Text :=
  let digits := Text.ofNat n
  "." ++ name ++ "." ++ List.replicate (8 - digits.length) (CodePoint.ofChar '0') ++ digits
    ++ ".tmp"

/-- Makes an empty file under the first of the names that is not in use. -/
def makeFirst (fs : FileSystem) (directory : Path) (name : Text) :
    List Nat → Except PathFault (FileSystem × Text)
  | [] => .error (.fault .taken)
  | n :: others =>
    let path := (directory.child (temporaryName name n)).text
    match fs.make path fun _ => .regular [] with
    | .ok made => .ok (made, path)
    | .error (.fault .taken) => makeFirst fs directory name others
    | .error fault => .error fault

/-- Makes an empty file beside the place of a manifest. -/
def makeTemporary (fs : FileSystem) (path : Path) : Except PathFault (FileSystem × Text) :=
  match Utf8.encode path.parent.text with
  | .error u => .error (.unencodable u)
  | .ok bytes =>
    if bytes.contains 0 then .error .embeddedNull
    else makeFirst fs (fs.absolute path.parent) path.name (List.range (fs.nodes.length + 1))

/-- The file system without a temporary file. -/
def discard (fs : FileSystem) (path : Text) : FileSystem :=
  match fs.remove path with
  | .ok cleaned => cleaned
  | .error _ => fs

/-- Fills a temporary file and puts it in its place. -/
def publish (fs : FileSystem) (temporary : Text) (path : Path) (files : List Text) :
    Except PathFault FileSystem := do
  match Utf8.encode (text files) with
  | .error u => throw (.unencodable u)
  | .ok bytes =>
    let filled ← fs.write temporary bytes
    filled.rename temporary path.text

/-- The failure to write a manifest. -/
def writeFailure (path : Path) (files : List Text) : PathFault → Failure
  | .fault fault => .bundle (.writeFailed path.text fault.reason files)
  | .unencodable u => .bundle (.writeFailed path.text u.message files)
  | .embeddedNull => .embeddedNull

/-- Writes a manifest, replacing the file that is there. -/
def write (fs : FileSystem) (path : Path) (files : List Text) : Outcome Path :=
  let failed (fs : FileSystem) (fault : PathFault) : Outcome Path :=
    ⟨fs, [], .error (writeFailure path files fault)⟩
  match makeTemporary fs path with
  | .error fault => failed fs fault
  | .ok (made, temporary) =>
    match publish made temporary path files with
    -- what is left of the temporary file is taken away
    | .error fault => failed (discard made temporary) fault
    | .ok written => ⟨written, [.manifestWritten path.text files.length], .ok path⟩

end Manifest

end BundleManifest
