/-
# BundleManifest.Pattern.Matching — which candidates a rule excludes

A rule about files looks at the whole path when it has a separator or is anchored, and at the file's
name otherwise. A rule about directories looks for its segments as a contiguous run among the
directories above the file: anywhere, or at the root when it is anchored. The file's own name never
counts for a directory rule.
-/
import BundleManifest.Candidate
import BundleManifest.Pattern.Basic

namespace BundleManifest

/-- Whether the items of the first list are matched one by one by the first items of the second. -/
def leads (accepts : Text → Text → Bool) : List Text → List Text → Bool
  | [], _ => true
  | _ :: _, [] => false
  | w :: wanted, d :: directories => accepts w d && leads accepts wanted directories

/-- Whether `wanted` leads some suffix of the directories. -/
def leadsSomewhere (accepts : Text → Text → Bool) (wanted : List Text) : List Text → Bool
  | [] => leads accepts wanted []
  | d :: directories =>
    leads accepts wanted (d :: directories) || leadsSomewhere accepts wanted directories

namespace Pattern

/-- What a rule about files is compared with. -/
def subject (p : Pattern) (c : Candidate) : Text :=
  if p.hasSeparator || p.anchored then c.path else c.name

/-- How one segment of a rule is compared with one directory. -/
def segmentAccepts (p : Pattern) : Text → Text → Bool :=
  if p.kind.isWildcard then Wildcard.matches else fun template segment => template == segment

/-- Whether a rule excludes a candidate. -/
def excludes (p : Pattern) (c : Candidate) : Bool :=
  match p.kind with
  | .exactName => p.subject c == p.body
  | .wildcard => Wildcard.matches p.body (p.subject c)
  | .directory | .wildcardDirectory =>
    if p.anchored then leads p.segmentAccepts p.segments c.directories
    else leadsSomewhere p.segmentAccepts p.segments c.directories

/-- The paths of the candidates that one line alone would exclude. -/
def excludedBy (line : Text) (candidates : List Candidate) : List Text :=
  match parse? line with
  | none => []
  | some p => (candidates.filter p.excludes).map Candidate.path

end Pattern

end BundleManifest
