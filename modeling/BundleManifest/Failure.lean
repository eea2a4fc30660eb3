/-
# BundleManifest.Failure — everything that can end an operation

Besides the errors that callers handle, an operation can end because of what it was given: a path
that the operating system refuses, a text that does not convert, a number out of range. `Failure`
lists all of these causes, and `Failure.message` puts each into words.
-/
import BundleManifest.Config.Fault
import BundleManifest.Error
import BundleManifest.FileSystem.Fault
import BundleManifest.Text.Fault

namespace BundleManifest

/-- Why an operation ended without a result. -/
inductive Failure where
  | bundle (e : BundleError)
  /-- The operating system refused an operation on these paths. -/
  | file (fault : FileFault) (paths : List Text)
  /-- A path holds the code point zero. -/
  | embeddedNull
  | unencodable (u : Utf8.Unencodable)
  | undecodable (i : Utf8.IllFormed)
  /-- The batches are larger than any sequence can be. -/
  | batchTooLarge
  /-- A path runs in a circle of links. -/
  | linkLoop (path : Text)
  /-- An infinite number was given for an integer. -/
  | infiniteInteger
  | scalar (fault : ScalarFault)
  deriving Repr

namespace Failure

/-- What is said about a failure. -/
def message : Failure → Text
  | bundle e => e.message
  | file fault paths => fault.report paths
  | embeddedNull => "embedded null byte"
  | unencodable u => u.message
  | undecodable i => i.message
  | batchTooLarge =>
    "Stop argument for islice() must be None or an integer: 0 <= x <= sys.maxsize."
  | linkLoop path => "Symlink loop from " ++ Text.quoted path
  | infiniteInteger => "cannot convert float infinity to integer"
  | scalar fault => fault.message

/-- The failure of an operation on a path. -/
def ofPath (fault : PathFault) (path : Text) : Failure :=
  match fault with
  | .fault f => .file f [path]
  | .embeddedNull => .embeddedNull
  | .unencodable u => .unencodable u

end Failure

end BundleManifest
