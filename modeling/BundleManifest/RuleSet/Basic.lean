/-
# BundleManifest.RuleSet.Basic — the rules of one application

Two files at the root of an application hold rules. Each line of the basic file is the exact name of
files to leave out; each line of the pattern file is a `Pattern`. A rule set holds both, and a
candidate is excluded as soon as one rule excludes it.
-/
import BundleManifest.Pattern.Matching
import BundleManifest.Text.Order

namespace BundleManifest

/-- The union of the rules from both files. -/
structure RuleSet where
  /-- The names that the basic file lists, each once, in the order in which they first appear. -/
  exact : List Text
  patterns : List Pattern
  deriving DecidableEq, Repr

namespace RuleSet

/-- The rules that the lines of the basic and of the pattern file denote. -/
def parse (basic enhanced : List Text) : RuleSet where
  exact := (basic.filterMap cleanLine?).eraseDups
  patterns := enhanced.filterMap Pattern.parse?

/-- The number of rules. -/
def size (rules : RuleSet) : Nat := rules.exact.length + rules.patterns.length

/-- Whether there are no rules. -/
def isEmpty (rules : RuleSet) : Bool := rules.exact.isEmpty && rules.patterns.isEmpty

/-- The exact names in code point order. -/
def sortedExact (rules : RuleSet) : List Text := Text.sort rules.exact

/-- Whether some rule excludes a candidate. -/
def excludes (rules : RuleSet) (c : Candidate) : Bool :=
  rules.exact.contains c.name || rules.patterns.any (·.excludes c)

end RuleSet

end BundleManifest
