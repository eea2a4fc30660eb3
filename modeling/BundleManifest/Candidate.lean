/-
# BundleManifest.Candidate — files that may go into a bundle

A candidate is a file below the application root, known by its path relative to the root and by the
segments of that path. `Candidate.ofPath` brings a path of either separator style to the normal
form in which the two agree; a candidate that is built directly may be inconsistent, and everything
downstream says which of the two parts it looks at.
-/
import BundleManifest.Text.Basic

namespace BundleManifest

/-- A file below the application root. -/
structure Candidate where
  path : Text
  segments : List Text
  deriving DecidableEq, Repr

namespace Candidate

/-- A path without `./` in front, however often that stands there. -/
def withoutHere : Text → Text
  | c :: d :: rest => if c = '.' && d = '/' then withoutHere rest else c :: d :: rest
  | path => path

/-- The segments of a path: what stands between slashes or backslashes, without the empty pieces
and the pieces that are a single point. -/
def segmentsOf (path : Text) : List Text :=
  (Text.split '/' (withoutHere (Text.replace '\\' '/' path))).filter fun s =>
    s != [] && s != Text.dot

/-- What is taken off in front are pieces that would be left out anyway. -/
theorem filter_split_withoutHere (path : Text) :
    (Text.split '/' (withoutHere path)).filter (fun s => s != [] && s != Text.dot)
      = (Text.split '/' path).filter fun s => s != [] && s != Text.dot := by
  fun_induction withoutHere path with
  | case1 c d rest h ih =>
    obtain ⟨rfl, rfl⟩ : c = CodePoint.ofChar '.' ∧ d = CodePoint.ofChar '/' := by simpa using h
    have hcut : Text.split '/' (CodePoint.ofChar '.' :: CodePoint.ofChar '/' :: rest)
        = [CodePoint.ofChar '.'] :: Text.split '/' rest :=
      cut_append (CodePoint.ofChar '/') [CodePoint.ofChar '.'] rest
    rw [hcut, ih]
    rfl
  | case2 c d rest h => rfl
  | case3 path h => rfl

/-- The segments of a path are found in all of it. -/
theorem segmentsOf_eq (path : Text) :
    segmentsOf path = (Text.split '/' (Text.replace '\\' '/' path)).filter fun s =>
      s != [] && s != Text.dot :=
  filter_split_withoutHere _

/-- The candidate with the given segments. -/
def ofSegments (segments : List Text) : Candidate := ⟨Text.join '/' segments, segments⟩

/-- The candidate that a relative path names. -/
def ofPath (path : Text) : Candidate := ofSegments (segmentsOf path)

/-- The last segment; empty when there is none. -/
def name (c : Candidate) : Text := c.segments.getLastD []

/-- The segments before the last. -/
def directories (c : Candidate) : List Text := c.segments.dropLast

/-- The name comes after the directories. -/
theorem directories_append_name {c : Candidate} (h : c.segments ≠ []) :
    c.directories ++ [c.name] = c.segments := by
  have hlast : c.name = c.segments.getLast h := by
    simp [name, List.getLastD_eq_getLast?, List.getLast?_eq_some_getLast h]
  rw [directories, hlast]
  exact List.dropLast_concat_getLast h

end Candidate

end BundleManifest
