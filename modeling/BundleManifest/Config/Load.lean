/-
# BundleManifest.Config.Load — the configuration of the command line

Settings come from three sources: the command line counts most, then the environment, then the
configuration file at the application root, and what none of them supplies has a default. A source
may give a setting under its name or under another one, and the other one wins. `Draft` holds the
merged settings as they were given; `Draft.check` turns them into a `Config`, or says which of them
is wrong.
-/
import BundleManifest.Config.Value
import BundleManifest.Failure
import BundleManifest.FileSystem.Read
import BundleManifest.Text.Line
import BundleManifest.Text.Numeral
import BundleManifest.Yaml.Document

namespace BundleManifest

/-- A checked configuration. -/
structure Config where
  root : Text
  manifestPath : Option Text
  workers : Nat
  batchSize : Nat
  followLinks : Bool
  excludeManifest : Bool
  debug : Bool
  jsonLogs : Bool
  deriving DecidableEq, Repr

/-- The settings that the environment gives; an empty text gives none. -/
structure Environment where
  debug : Text := []
  workers : Text := []
  deriving DecidableEq, Repr

namespace Config

/-- The name of the configuration file. -/
def fileName : Text := ".deploybundle.yaml"

/-- What is wrong with a setting. -/
inductive Fault where
  | notText (name : Text) (value : Value)
  | notInteger (name : Text) (value : Value)
  | tooSmall (name : Text) (n : Int)
  | notBoolean (name : Text) (value : Value)
  deriving Repr

/-- What is said about a wrong setting. -/
def Fault.message : Fault → Text
  | notText name value => name ++ " must be a string, got " ++ value.shown
  | notInteger name value => name ++ " must be an integer, got " ++ value.shown
  | tooSmall name n => name ++ " must be at least 1, got " ++ Text.ofInt n
  | notBoolean name value => name ++ " must be a boolean, got " ++ value.shown

/-- Whether everything that is said about a wrong setting can be written. -/
def Fault.isShowable : Fault → Bool
  | notText _ value | notInteger _ value | notBoolean _ value => value.isShowable
  | tooSmall _ n => Value.isShowableInt n

/-- The failure that a wrong setting causes. -/
def Fault.failure (f : Fault) : Failure :=
  if f.isShowable then .bundle (.badConfiguration f.message) else .scalar .tooLongToShow

/-! ## Single settings -/

/-- The words that switch something on, in small letters. -/
def onWords : List Text := ["1", "true", "yes", "on"]

/-- Whether a text switches something on. -/
def isOn (t : Text) : Bool := onWords.contains (Text.lower (Text.trim t))

/-- A setting that is a text or absent. -/
def textOf (name : Text) : Value → Except Failure (Option Text)
  | .null => .ok none
  | .text t => .ok (some t)
  | value => .error (Fault.notText name value).failure

/-- The integer that bytes are written as. Bytes outside ASCII are no digits. -/
def readIntBytes? (b : Bytes) : Option Int :=
  if b.all fun byte => byte.toNat < 0x80 then Text.readInt? (b.map fun byte => .ofNat byte.toNat)
  else none

/-- The integer that a value is taken for. A number is cut off after the point, and a text is
read, as are bytes. -/
def integerOf (name : Text) (value : Value) : Except Failure Int :=
  let refused : Except Failure Int := .error (Fault.notInteger name value).failure
  match value with
  | .int n => .ok n
  | .real (.infinite _) => .error .infiniteInteger
  | .real x => (x.truncate?.map Except.ok).getD refused
  | .text t => ((Text.readInt? t).map Except.ok).getD refused
  | .bytes b => ((readIntBytes? b).map Except.ok).getD refused
  | _ => refused

/-- A setting that is a positive integer. -/
def countOf (name : Text) (value : Value) : Except Failure Nat := do
  let n ← integerOf name value
  if n < 1 then throw (Fault.tooSmall name n).failure else return n.toNat

/-- A setting that is a truth value or a text for one. -/
def switchOf (name : Text) : Value → Except Failure Bool
  | .bool b => .ok b
  | .text t => .ok (isOn t)
  | value => .error (Fault.notBoolean name value).failure

/-! ## Merging -/

/-- Settings as they were given. -/
structure Draft where
  manifestPath : Value := .null
  workers : Value := .int 1
  batchSize : Value := .int 256
  followLinks : Value := .bool true
  excludeManifest : Value := .bool true
  debug : Value := .bool false
  jsonLogs : Value := .bool false
  deriving Repr

namespace Draft

/-- The value that a source supplies under one of two names, of which the second one wins. -/
def either? (source : Settings) (name other : Text) : Option Value :=
  (source.supplied? other).or (source.supplied? name)

/-- The settings after those that a source supplies have been replaced. -/
def apply (d : Draft) (source : Settings) : Draft where
  manifestPath := (either? source "manifest_path" "manifest").getD d.manifestPath
  workers := (source.supplied? "workers").getD d.workers
  batchSize := (either? source "batch_size" "batchSize").getD d.batchSize
  followLinks := (either? source "follow_symlinks" "followSymlinks").getD d.followLinks
  excludeManifest := (either? source "exclude_manifest" "excludeManifest").getD d.excludeManifest
  debug := (source.supplied? "debug").getD d.debug
  jsonLogs := (either? source "json_logs" "jsonLogs").getD d.jsonLogs

/-- The settings after those that the environment gives have been replaced. -/
def applyEnvironment (d : Draft) (e : Environment) : Draft :=
  { d with
    debug := if e.debug = [] then d.debug else .bool (isOn e.debug)
    workers := if e.workers = [] then d.workers else .text e.workers }

/-- The settings with a relative manifest path taken as starting at the application root. -/
def rooted (d : Draft) (root : Text) : Except Failure Draft := do
  match ← textOf "manifest_path" d.manifestPath with
  | none | some [] => return d
  | some t =>
    let path := Path.ofText t
    if path.isAbsolute then return d
    else return { d with manifestPath := .text ((Path.ofText root).join path).text }

/-- The checked settings, or what is wrong with the first wrong one. -/
def check (d : Draft) (root : Text) : Except Failure Config := do
  -- the order of the checks decides which fault is reported
  let manifestPath ← textOf "manifest_path" d.manifestPath
  let workers ← countOf "workers" d.workers
  let batchSize ← countOf "batch_size" d.batchSize
  let followLinks ← switchOf "follow_symlinks" d.followLinks
  let excludeManifest ← switchOf "exclude_manifest" d.excludeManifest
  let debug ← switchOf "debug" d.debug
  let jsonLogs ← switchOf "json_logs" d.jsonLogs
  return { root, manifestPath, workers, batchSize, followLinks, excludeManifest, debug, jsonLogs }

end Draft

/-- The configuration that three sources give for an application root. -/
def merge (root : Text) (file : Settings) (environment : Environment) (arguments : Settings) :
    Except Failure Config := do
  let d ← (({} : Draft).apply file).rooted root
  ((d.applyEnvironment environment).apply arguments).check root

/-! ## The configuration file -/

/-- The names under which settings are looked for. -/
def settingNames : List Text := [
  "manifest_path", "workers", "batch_size", "follow_symlinks", "exclude_manifest", "debug",
  "json_logs", "manifest", "batchSize", "followSymlinks", "excludeManifest", "jsonLogs"]

/-- The document that a text describes. A malformed one counts as empty. -/
def documentOf (t : Text) : Except Failure Yaml.Document :=
  match Yaml.Document.ofText t with
  | .ok d => .ok d
  | .error .malformed => .ok {}
  | .error (.scalar fault) => .error (.scalar fault)

/-- The document in a configuration file. A file that does not exist or cannot be read counts as
empty; one that is not well-formed text is refused. -/
def documentAt (fs : FileSystem) (path : Path) : Except Failure Yaml.Document :=
  match fs.probe path.text with
  | .error fault => .error (.file fault [path.text])
  | .ok none => .ok {}
  | .ok (some _) =>
    match fs.read path.text with
    | .error _ => .ok {}
    | .ok bytes =>
      match Utf8.decodeStrict bytes with
      | .error i => .error (.undecodable i)
      | .ok text => documentOf (Text.unifyBreaks text)

/-- The settings that a document gives. Nothing else in it is looked at. -/
def settingsOf (d : Yaml.Document) : Settings :=
  settingNames.filterMap fun name => (d.get? name).map fun value => (name, value)

/-- The configuration for an application root; without one the root is the working directory. -/
def load (fs : FileSystem) (root : Option Text) (environment : Environment)
    (arguments : Settings) : Except Failure Config := do
  let root := root.getD fs.herePath.text
  let file ← documentAt fs ((Path.ofText root).child fileName)
  merge root (settingsOf file) environment arguments

end Config

end BundleManifest
