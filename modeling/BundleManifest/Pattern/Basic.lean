/-
# BundleManifest.Pattern.Basic — one ignore rule

A line of the pattern file is a rule. `Pattern.parse?` trims it, reads backslashes as slashes and
notes three things: a leading slash ties the rule to the application root, a trailing slash makes it
a rule about directories, and a star or question mark makes it a wildcard. What remains between the
separators is the body. Blank lines, comments and lines of nothing but separators are no rules.
-/
import BundleManifest.Text.Blank
import BundleManifest.Pattern.Wildcard

namespace BundleManifest

/-- What a rule compares, and how. -/
inductive PatternKind where
  /-- The name or path of the file, literally. -/
  | exactName
  /-- The name or path of the file, as a wildcard. -/
  | wildcard
  /-- A run of directories above the file, literally. -/
  | directory
  /-- A run of directories above the file, as wildcards. -/
  | wildcardDirectory
  deriving DecidableEq, Repr

namespace PatternKind

/-- Whether a pattern stands for directories. -/
def isDirectory : PatternKind → Bool
  | directory | wildcardDirectory => true
  | exactName | wildcard => false

/-- Whether a pattern holds wildcards. -/
def isWildcard : PatternKind → Bool
  | wildcard | wildcardDirectory => true
  | exactName | directory => false

/-- The kind with the two given properties. -/
def ofFlags (isDirectory isWildcard : Bool) : PatternKind :=
  match isDirectory, isWildcard with
  | false, false => exactName
  | false, true => wildcard
  | true, false => directory
  | true, true => wildcardDirectory

/-- The word by which listings call a kind. -/
def word : PatternKind → String
  | exactName => "exact_name"
  | wildcard => "wildcard"
  | directory => "directory"
  | wildcardDirectory => "wildcard_directory"

end PatternKind

/-- One ignore rule. -/
structure Pattern where
  /-- The trimmed line. -/
  raw : Text
  kind : PatternKind
  /-- The template: segments joined by single slashes. -/
  body : Text
  /-- Whether the rule applies from the application root only. -/
  anchored : Bool := false
  deriving DecidableEq, Repr

/-- A rule line without its surrounding blanks, unless it is empty or a comment. -/
def cleanLine? (line : Text) : Option Text :=
  match Text.trim line with
  | [] => none
  | c :: rest => if c = '#' then none else some (c :: rest)

namespace Pattern

/-- The parts of the body between slashes. -/
def segments (p : Pattern) : List Text := Text.split '/' p.body

/-- Whether the body has a slash. -/
def hasSeparator (p : Pattern) : Bool := p.body.contains '/'

/-- The rule that a line denotes. -/
def parse? (line : Text) : Option Pattern :=
  match cleanLine? line with
  | none => none
  | some raw =>
    let path := Text.replace '\\' '/' raw
    let body := Text.join '/' ((Text.split '/' path).filter (· != []))
    if body = [] then none
    else
      some { raw
             kind := .ofFlags (path.getLast? == some '/') (body.any Wildcard.isWild)
             body
             anchored := path.head? == some '/' }

end Pattern

end BundleManifest
