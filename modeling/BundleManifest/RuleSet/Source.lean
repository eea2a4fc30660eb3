/-
# BundleManifest.RuleSet.Source — where rules come from

The basic and the pattern file lie at the application root. A `LineReader` reads one of them; the
one that reads from a file system takes a file that does not exist for an empty one, and reports one
that cannot be read. The pattern file can be overridden by lines that the caller gives.
-/
import BundleManifest.Failure
import BundleManifest.FileSystem.Read
import BundleManifest.Notice
import BundleManifest.RuleSet.Basic
import BundleManifest.Text.Line

namespace BundleManifest

/-- The lines of a rule file, and what was reported while they were read. -/
structure RuleLines where
  lines : List Text
  notices : List Notice := []
  deriving Repr

/-- How a rule file is read. -/
abbrev LineReader := Path → Except Failure RuleLines

namespace RuleSet

/-- The name of the file of exact names. -/
def basicFile : Text := ".rscignore"

/-- The name of the file of patterns. -/
def patternFile : Text := ".rsconnectignore"

/-- The lines of a rule file with these bytes. -/
def linesOf (bytes : Bytes) : List Text := Text.lines (Utf8.decodeMarked bytes)

/-- Reads rule files from a file system. -/
def reader (fs : FileSystem) : LineReader := fun path =>
  match fs.read path.text with
  | .ok bytes => .ok { lines := linesOf bytes }
  | .error (.fault .missing) => .ok { lines := [] }
  | .error (.fault fault) =>
    .ok ⟨[], [.ruleSourceUnreadable path.text (fault.report [path.text])]⟩
  | .error fault => .error (Failure.ofPath fault path.text)

/-- The rules of an application, what was reported, and the files that were asked for. -/
structure Loading where
  rules : RuleSet
  notices : List Notice
  asked : List Path
  deriving Repr

/-- Loads the rules of an application. Lines that override the pattern file are used in its
place. -/
def load (read : LineReader) (root : Path) (override : Option (List Text)) :
    Except Failure Loading := do
  let basicPath := root.child basicFile
  let basic ← read basicPath
  let (enhanced, asked) ←
    match override with
    -- the pattern file is not even asked for
    | some lines => pure (({ lines } : RuleLines), [basicPath])
    | none =>
      let patternPath := root.child patternFile
      let enhanced ← read patternPath
      pure (enhanced, [basicPath, patternPath])
  let rules := parse basic.lines enhanced.lines
  let loaded :=
    Notice.rulesLoaded root.text rules.exact.length rules.patterns.length override.isSome
  return ⟨rules, basic.notices ++ enhanced.notices ++ [loaded], asked⟩

end RuleSet

end BundleManifest
