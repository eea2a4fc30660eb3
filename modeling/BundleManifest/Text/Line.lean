/-
# BundleManifest.Text.Line — lines of a text

Two steps turn a text into lines. `unifyBreaks` writes every carriage return, alone or before a
line feed, as one line feed. `splitLines` then cuts at every line boundary, of which the line feed
is only one: vertical tab, form feed, the separators U+001C to U+001E, next line and the Unicode
line and paragraph separators end a line as well. A boundary at the very end starts no further line.
-/
import BundleManifest.Text.Basic

namespace BundleManifest

/-- The code points that end a line. -/
def CodePoint.isLineBoundary (c : CodePoint) : Bool :=
  let n := c.val
  (0x0A ≤ n && n ≤ 0x0D) || (0x1C ≤ n && n ≤ 0x1E) || n == 0x85 || n == 0x2028 || n == 0x2029

namespace Text

/-- Carriage return and line feed, and carriage return alone, become a line feed. -/
def unifyBreaks : Text → Text
  | [] => []
  | c :: rest =>
    if c = '\r' then
      match rest with
      | d :: rest' => if d = '\n' then d :: unifyBreaks rest' else '\n' :: unifyBreaks (d :: rest')
      | [] => ['\n']
    else c :: unifyBreaks rest
termination_by t => t.length

/-- The lines of a text in which every boundary is a single code point. -/
def splitLines : Text → List Text
  | [] => []
  | c :: rest =>
    if c.isLineBoundary then [] :: splitLines rest
    else match splitLines rest with
      | [] => [[c]]
      | line :: lines => (c :: line) :: lines

/-- The lines of a text. -/
def lines (t : Text) : List Text := splitLines (unifyBreaks t)

end Text

end BundleManifest
