/-
# BundleManifest.Notice — what the library reports while it works

A notice is one event worth a line in a log. Operations return their notices in order, and whoever
runs them decides what becomes of them. A notice has a name, a level, the part of the library that
reports it, and fields.
-/
import BundleManifest.Config.Value

namespace BundleManifest

/-- How important a notice is. -/
inductive NoticeLevel where
  | debug
  | warning
  deriving DecidableEq, Repr

/-- The word for a level. -/
def NoticeLevel.name : NoticeLevel → Text
  | debug => "debug"
  | warning => "warning"

/-- An event worth a line in a log. -/
inductive Notice where
  | ruleSourceUnreadable (path error : Text)
  | rulesLoaded (root : Text) (exact patterns : Nat) (override : Bool)
  | walkRootUnreadable (path : Text)
  | walkDirectoryUnreadable (path error : Text)
  | walkEntrySkipped (path error : Text)
  | walkLinkRevisit (path : Text)
  /-- A path holds a line break and cannot stand in a manifest. -/
  | pathUnrepresentable (path : Text) (onWorker : Bool)
  | manifestGenerated (root : Text) (rules files : Nat) (workers : Int)
  | manifestWritten (path : Text) (count : Nat)
  deriving DecidableEq, Repr

namespace Notice

/-- How much a notice matters. -/
def level : Notice → NoticeLevel
  | rulesLoaded .. | walkEntrySkipped .. | walkLinkRevisit _ | manifestGenerated ..
  | manifestWritten .. => .debug
  | ruleSourceUnreadable .. | walkRootUnreadable _ | walkDirectoryUnreadable ..
  | pathUnrepresentable .. => .warning

/-- The name of an event. -/
def name : Notice → Text
  | ruleSourceUnreadable .. => "rule_source_unreadable"
  | rulesLoaded .. => "rules_loaded"
  | walkRootUnreadable _ => "walk_root_unreadable"
  | walkDirectoryUnreadable .. => "walk_dir_unreadable"
  | walkEntrySkipped .. => "walk_entry_skipped"
  | walkLinkRevisit _ => "walk_symlink_revisit"
  | pathUnrepresentable .. => "manifest_path_unrepresentable"
  | manifestGenerated .. => "manifest_generated"
  | manifestWritten .. => "manifest_written"

/-- The part of the library that reports an event. -/
def reporter : Notice → Text
  | ruleSourceUnreadable .. | rulesLoaded .. => "deploybundle.rules"
  | walkRootUnreadable _ | walkDirectoryUnreadable .. | walkEntrySkipped .. | walkLinkRevisit _ =>
    "deploybundle.walker"
  | pathUnrepresentable .. | manifestGenerated .. | manifestWritten .. => "deploybundle.manifest"

/-- What an event is about, by name. -/
def fields : Notice → Settings
  | ruleSourceUnreadable path error | walkDirectoryUnreadable path error
  | walkEntrySkipped path error => [("path", .text path), ("error", .text error)]
  | rulesLoaded root exact patterns override =>
    [("root", .text root), ("exact", .int exact), ("patterns", .int patterns),
      ("override", .bool override)]
  | walkRootUnreadable path | walkLinkRevisit path | pathUnrepresentable path _ =>
    [("path", .text path)]
  | manifestGenerated root rules files workers =>
    [("root", .text root), ("rules", .int rules), ("files", .int files), ("workers", .int workers)]
  | manifestWritten path count => [("path", .text path), ("count", .int count)]

/-- Whether an event is reported by a worker, where nothing is known about the caller. -/
def fromWorker : Notice → Bool
  | pathUnrepresentable _ onWorker => onWorker
  | _ => false

end Notice

end BundleManifest
