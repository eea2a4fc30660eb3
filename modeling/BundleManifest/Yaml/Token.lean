/-
# BundleManifest.Yaml.Token — the tokens of a document

A document is a sequence of tokens: indicators, names, tags and scalars. Indentation becomes tokens
as well, because a block starts where the column grows and ends where it shrinks. This module says
which tokens there are, and how names, tags and directives are written.
-/
import BundleManifest.Text.Utf8
import BundleManifest.Yaml.ScalarText

namespace BundleManifest.Yaml

/-- What a line that starts with a percent sign says. -/
inductive Directive where
  /-- The version of the format; only its first number matters. -/
  | version (major : Nat)
  /-- A handle that stands for the beginning of tags. -/
  | handle (handle beginning : Text)
  | other
  deriving DecidableEq, Repr

/-- The tokens of a document. -/
inductive Token where
  | directive (d : Directive)
  | documentStart
  | documentEnd
  | blockSequenceStart
  | blockMappingStart
  | blockEnd
  | flowSequenceStart
  | flowSequenceEnd
  | flowMappingStart
  | flowMappingEnd
  | blockEntry
  | flowEntry
  | key
  | value
  | alias (name : Text)
  | anchor (name : Text)
  | tag (handle : Option Text) (suffix : Text)
  | scalar (text : Text) (plain : Bool)
  deriving DecidableEq, Repr

namespace Token

/-- The code points that a tag may hold besides letters and digits. -/
def isTagPoint (c : CodePoint) : Bool := isWordPoint c || among ";/?:@&=+$,.!~*'()[]%" c

/-- The bytes of escape sequences in a tag. -/
def tagEscapes : Nat → Cursor → Option (Bytes × Cursor)
  | 0, _ => none
  | fuel + 1, c =>
    if c.next ≠ some (CodePoint.ofChar '%') then some ([], c)
    else do
      let high ← (c.peek 1).bind (CodePoint.digitIn? 16)
      let low ← (c.peek 2).bind (CodePoint.digitIn? 16)
      let (bytes, c) ← tagEscapes fuel (c.skip 3)
      return (UInt8.ofNat (high * 16 + low) :: bytes, c)

/-- The text of a tag, escape sequences replaced. -/
def tagText : Nat → Cursor → Option ReadText
  | 0, _ => none
  | fuel + 1, c =>
    let text := c.run fun p => isTagPoint p && p ≠ '%'
    let after := c.skip text.length
    if after.next = some (CodePoint.ofChar '%') then do
      let (bytes, after) ← tagEscapes fuel after
      let escaped ← (Utf8.decodeStrict bytes).toOption
      let (others, after) ← tagText fuel after
      return (text ++ escaped ++ others, after)
    else some (text, after)

/-- The text of a tag, which may not be empty. -/
def someTagText (c : Cursor) : Option ReadText := do
  let (text, after) ← tagText (c.rest.length + 1) c
  if text = [] && after.index = c.index then none else some (text, after)

/-- The handle of a tag: one exclamation mark before a space, or a word between two. -/
def tagHandle (c : Cursor) : Option ReadText :=
  if c.next ≠ some (CodePoint.ofChar '!') then none
  else if c.peek 1 = some (CodePoint.ofChar ' ') then some ([CodePoint.ofChar '!'], c.step)
  else
    let word := c.step.run isWordPoint
    let length := word.length + 1
    if c.peek length ≠ some (CodePoint.ofChar '!') then none
    else some (c.rest.take (length + 1), c.skip (length + 1))

/-- Whether the code points up to the next space hold another exclamation mark. -/
def hasHandle (c : Cursor) : Bool :=
  (c.step.run fun p => !isSpaceOrBreak p).contains '!'

/-- A tag, whatever comes after it. -/
def tagBody (c : Cursor) : Option (Token × Cursor) :=
  if c.peek 1 = some (CodePoint.ofChar '<') then do
    let (suffix, c) ← someTagText (c.skip 2)
    if c.next ≠ some (CodePoint.ofChar '>') then none else some (.tag none suffix, c.step)
  else if endOr isGap (c.peek 1) then some (.tag none "!", c.step)
  else do
    let (handle, c) ← if hasHandle c then tagHandle c else some (Text.ofString "!", c.step)
    let (suffix, c) ← someTagText c
    return (.tag (some handle) suffix, c)

/-- A tag, which ends before a space or the end of its line. -/
def tagToken (c : Cursor) : Option (Token × Cursor) :=
  (tagBody c).filter fun (_, after) => endOr isSpaceOrBreak after.next

/-- The name of an anchor, after its indicator. -/
def anchorName (c : Cursor) : Option ReadText :=
  let name := c.run isWordPoint
  let c := c.skip name.length
  if name = [] then none
  else if endOr (fun p => isGap p || among "?:,]\x7d%@\x60" p) c.next then some (name, c)
  else none

end Token

namespace Directive

/-- A part of a version number. -/
def versionNumber (c : Cursor) : Except Fault (Nat × Cursor) := do
  let digits := c.run CodePoint.isDigit
  if digits = [] then throw .malformed
  if Text.maxDigits < digits.length then throw (.scalar (.tooManyDigits digits.length))
  return (Text.digitsValue digits, c.skip digits.length)

/-- What a directive with a given name says, and the position after it. -/
def readValue (name : Text) (c : Cursor) : Except Fault (Directive × Cursor) := do
  let c' := c.pass (· = CodePoint.ofChar ' ')
  if name = Text.ofString "YAML" then
    let (major, c) ← versionNumber c'
    if c.next ≠ some (CodePoint.ofChar '.') then throw .malformed
    let (_, c) ← versionNumber c.step
    if endOr isSpaceOrBreak c.next then return (.version major, c) else throw .malformed
  else if name = Text.ofString "TAG" then
    let (short, c) ← Fault.required (Token.tagHandle c')
    if c.next ≠ some (CodePoint.ofChar ' ') then throw .malformed
    let (beginning, c) ← Fault.required (Token.someTagText (c.pass (· = CodePoint.ofChar ' ')))
    if endOr isSpaceOrBreak c.next then return (.handle short beginning, c)
    else throw .malformed
  else return (.other, c.pass (! isBreak ·))

/-- A directive, after its percent sign. -/
def read (c : Cursor) : Except Fault (Directive × Cursor) := do
  let name := c.run isWordPoint
  let c := c.skip name.length
  if name = [] || !endOr isSpaceOrBreak c.next then throw .malformed
  let (d, c) ← readValue name c
  return (d, ← Fault.required c.blankLine?)

end Directive

end BundleManifest.Yaml
