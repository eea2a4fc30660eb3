/-
# BundleManifest.FileSystem.Fault — why an operation on a file is refused

Each fault has the number and the text that the operating system gives it. `FileFault.report` is the
line that messages show: number, text and the path or paths of the operation.
-/
import BundleManifest.Text.Quoted
import BundleManifest.Text.Utf8

namespace BundleManifest

/-- Why the operating system refuses an operation. -/
inductive FileFault where
  | missing
  | busy
  | taken
  | notDirectory
  | isDirectory
  | invalid
  | nameTooLong
  | notEmpty
  | tooManyLinks
  deriving DecidableEq, Repr

namespace FileFault

/-- The number of a fault. -/
def number : FileFault → Nat
  | missing => 2
  | busy => 16
  | taken => 17
  | notDirectory => 20
  | isDirectory => 21
  | invalid => 22
  | nameTooLong => 36
  | notEmpty => 39
  | tooManyLinks => 40

/-- What a fault says. -/
def reason : FileFault → Text
  | missing => "No such file or directory"
  | busy => "Device or resource busy"
  | taken => "File exists"
  | notDirectory => "Not a directory"
  | isDirectory => "Is a directory"
  | invalid => "Invalid argument"
  | nameTooLong => "File name too long"
  | notEmpty => "Directory not empty"
  | tooManyLinks => "Too many levels of symbolic links"

/-- A fault with the paths of the operation that met it, as far as they are known. -/
def report (fault : FileFault) (paths : List Text) : Text :=
  let shown := Text.separated " -> " (paths.map Text.quoted)
  "[Errno " ++ Text.ofNat fault.number ++ "] " ++ fault.reason
    ++ (if paths = [] then [] else Text.ofString ": " ++ shown)

end FileFault

/-- Why a path leads nowhere: it cannot be handed to the operating system at all, or the operating
system refuses it. -/
inductive PathFault where
  | fault (f : FileFault)
  | embeddedNull
  | unencodable (u : Utf8.Unencodable)
  deriving DecidableEq, Repr

end BundleManifest
