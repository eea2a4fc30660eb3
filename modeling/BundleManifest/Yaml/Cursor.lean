/-
# BundleManifest.Yaml.Cursor — a position in a document

A cursor is what is left of a document together with the line and column that were reached. Line
breaks are the line feed, next line, and the Unicode line and paragraph separators; carriage returns
are expected to have been unified with line feeds before.
-/
import BundleManifest.Text.Digit

namespace BundleManifest.Yaml

/-- A position in a document. -/
structure Cursor where
  rest : Text
  index : Nat := 0
  line : Nat := 0
  column : Nat := 0
  deriving DecidableEq, Repr

/-- Whether a code point is one of those in a string. -/
def among (choices : String) (c : CodePoint) : Bool := (Text.ofString choices).contains c

/-- Whether a code point ends a line. -/
def isBreak (c : CodePoint) : Bool :=
  c.val == 0x0A || c.val == 0x85 || c.val == 0x2028 || c.val == 0x2029

/-- The byte order mark, which takes no column. -/
def byteOrderMark : CodePoint := .ofNat 0xFEFF

/-- Letters, digits, `-` and `_`. -/
def isWordPoint (c : CodePoint) : Bool := c.isLetterOrDigit || among "-_" c

/-- Whether there is nothing, or a code point of a class. -/
def endOr (accepts : CodePoint → Bool) : Option CodePoint → Bool
  | none => true
  | some c => accepts c

/-- Whether there is a code point of a class. -/
def holds (accepts : CodePoint → Bool) : Option CodePoint → Bool
  | none => false
  | some c => accepts c

/-- A space or a line break. -/
def isSpaceOrBreak (c : CodePoint) : Bool := c = ' ' || isBreak c

/-- A space, a tab or a line break. -/
def isGap (c : CodePoint) : Bool := c = ' ' || c = '\t' || isBreak c

/-- A space or a tab. -/
def isSpaceOrTab (c : CodePoint) : Bool := c = ' ' || c = '\t'

namespace Cursor

/-- The start of a document. -/
def start (t : Text) : Cursor := { rest := t }

/-- The code point at a distance; none past the end. -/
def peek (c : Cursor) (n : Nat) : Option CodePoint := c.rest[n]?

/-- The next code point; none at the end. -/
def next (c : Cursor) : Option CodePoint := c.rest.head?

/-- The position after the next code point. -/
def step (c : Cursor) : Cursor :=
  match c.rest with
  | [] => c
  | p :: rest =>
    if isBreak p then ⟨rest, c.index + 1, c.line + 1, 0⟩
    else ⟨rest, c.index + 1, c.line, if p = byteOrderMark then c.column else c.column + 1⟩

/-- The position after some code points. -/
def skip : Nat → Cursor → Cursor
  | 0, c => c
  | n + 1, c => skip n c.step

/-- The next code points of a class. -/
def run (accepts : CodePoint → Bool) (c : Cursor) : Text := c.rest.takeWhile accepts

/-- The position after the next code points of a class. -/
def pass (accepts : CodePoint → Bool) (c : Cursor) : Cursor := c.skip (c.run accepts).length

/-- A line break here, as it is kept in a text: only the line and paragraph separators are kept as
they are. -/
def lineBreak? (c : Cursor) : Option CodePoint :=
  match c.next with
  | some p => if isBreak p then some (if p.val = 0x85 then .ofNat 0x0A else p) else none
  | none => none

/-- The rest of a line that may hold nothing but spaces and a comment; none if it holds anything
else. -/
def blankLine? (c : Cursor) : Option Cursor :=
  let c := c.pass (· = CodePoint.ofChar ' ')
  let c := if c.next = some (CodePoint.ofChar '#') then c.pass (! isBreak ·) else c
  if endOr isBreak c.next then some (if c.next = none then c else c.step) else none

/-- Whether a marker of three code points stands here, followed by a gap. -/
def atMarker (marker : String) (c : Cursor) : Bool :=
  (Text.ofString marker).isPrefixOf c.rest && endOr isGap (c.peek 3)

/-- Whether a line of the document starts or ends one. -/
def atBoundary (c : Cursor) : Bool := c.atMarker "---" || c.atMarker "..."

end Cursor

end BundleManifest.Yaml
