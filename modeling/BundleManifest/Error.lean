/-
# BundleManifest.Error — the errors of the library

A `BundleError` is an error that callers are meant to handle: it belongs to a category, says whether
trying again may help, and carries details by name. `BundleError.message` is the one place where an
error is put into words.
-/
import BundleManifest.Config.Value

namespace BundleManifest

/-- What an error is about. -/
inductive ErrorCategory where
  | io
  | configuration
  | cancellation
  | internal
  deriving DecidableEq, Repr

/-- The name of a category. -/
def ErrorCategory.name : ErrorCategory → Text
  | io => "io"
  | configuration => "configuration"
  | cancellation => "cancellation"
  | internal => "internal"

/-- The name of a category in capitals, as descriptions show it. -/
def ErrorCategory.label : ErrorCategory → Text
  | io => "IO"
  | configuration => "CONFIGURATION"
  | cancellation => "CANCELLATION"
  | internal => "INTERNAL"

/-- An error that callers are meant to handle. -/
inductive BundleError where
  /-- An error that says everything about itself. -/
  | general (message : Text) (category : ErrorCategory) (retryable : Bool) (details : Settings)
  /-- The application root does not exist or is no directory. -/
  | rootMissing (root : Text)
  /-- The manifest could not be written. The selected files are kept. -/
  | writeFailed (path reason : Text) (files : List Text)
  /-- A manifest could not be read back. -/
  | readFailed (path reason : Text)
  /-- The caller cancelled the operation. -/
  | cancelled (message : Text)
  /-- A setting has a value that it cannot have. -/
  | badConfiguration (message : Text)
  deriving Repr

namespace BundleError

/-- What an error says. -/
def message : BundleError → Text
  | general message _ _ _ => message
  | rootMissing root => "Application root is not a directory: " ++ root
  | writeFailed path reason _ => "Cannot write manifest to " ++ path ++ ": " ++ reason
  | readFailed path reason => "Cannot read manifest " ++ path ++ ": " ++ reason
  | cancelled message => message
  | badConfiguration message => message

/-- The category of an error. -/
def category : BundleError → ErrorCategory
  | general _ category _ _ => category
  | rootMissing _ | badConfiguration _ => .configuration
  | writeFailed .. | readFailed .. => .io
  | cancelled _ => .cancellation

/-- Whether trying again may help. -/
def retryable : BundleError → Bool
  | general _ _ retryable _ => retryable
  | writeFailed .. => true
  | _ => false

/-- What an error knows besides its message, by name. -/
def details : BundleError → Settings
  | general _ _ _ details => details
  | rootMissing root => [("root", .text root)]
  | writeFailed path _ _ | readFailed path _ => [("path", .text path)]
  | cancelled _ | badConfiguration _ => []

/-- The name of the kind of error. -/
def label : BundleError → Text
  | general .. => "BundleError"
  | rootMissing _ => "RootNotFoundError"
  | writeFailed .. => "ManifestWriteError"
  | readFailed .. => "ManifestReadError"
  | cancelled _ => "CancellationError"
  | badConfiguration _ => "ConfigurationError"

/-- An error as one line for programmers. -/
def describe (e : BundleError) : Text :=
  e.label ++ "(" ++ Text.quoted e.message ++ ", category=<ErrorCategory." ++ e.category.label
    ++ ": " ++ Text.quoted e.category.name ++ ">)"

end BundleError

end BundleManifest
