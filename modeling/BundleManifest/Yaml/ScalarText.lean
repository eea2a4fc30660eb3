/-
# BundleManifest.Yaml.ScalarText — how the text of a scalar is written

A scalar is written plainly, between single or double quotation marks, or as a block of indented
lines. In all but the literal block a line break inside the text is folded: one break is a space,
and more breaks are one less. Each reader below gives the text of the scalar that starts at a
cursor and the position after it, or says what is wrong with the scalar.
-/
import BundleManifest.Yaml.Cursor
import BundleManifest.Yaml.Fault

namespace BundleManifest.Yaml

/-- A text that has been read, and the position after it. -/
abbrev ReadText := Text × Cursor

/-- The text of folded breaks: the first break, and those after it. -/
def folded (first : CodePoint) (others : Text) : Text :=
  (if first ≠ '\n' then [first] else if others = [] then [CodePoint.ofChar ' '] else []) ++ others

/-! ## Between quotation marks -/

/-- What single letters after a backslash stand for. -/
def escapes : List (Char × Nat) := [
  ('0', 0x00), ('a', 0x07), ('b', 0x08), ('t', 0x09), ('\t', 0x09), ('n', 0x0A), ('v', 0x0B),
  ('f', 0x0C), ('r', 0x0D), ('e', 0x1B), (' ', 0x20), ('"', 0x22), ('\\', 0x5C), ('/', 0x2F),
  ('N', 0x85), ('_', 0xA0), ('L', 0x2028), ('P', 0x2029)]

/-- How many hexadecimal digits follow a letter after a backslash. -/
def escapeWidths : List (Char × Nat) := [('x', 2), ('u', 4), ('U', 8)]

/-- The entry of a table for a code point. -/
def entry? (table : List (Char × Nat)) (c : CodePoint) : Option Nat :=
  (table.find? fun e => CodePoint.ofChar e.1 = c).map (·.2)

/-- The number that hexadecimal digits denote. -/
def hexNumber? (digits : Text) : Option Nat :=
  (digits.mapM (CodePoint.digitIn? 16)).map (Text.ofDigits 16)

/-- The line breaks at the start of a continued line, without the spaces around them. A boundary of
the document may not stand there. -/
def continuation : Nat → Text → Cursor → Except Fault ReadText
  | 0, _, _ => .error .malformed
  | fuel + 1, breaks, c =>
    if c.atBoundary then .error .malformed
    else
      let c := c.pass isSpaceOrTab
      match c.lineBreak? with
      | some b => continuation fuel (breaks ++ [b]) c.step
      | none => .ok (breaks, c)

/-- Spaces or line breaks inside quotation marks. -/
def quotedGap (fuel : Nat) (c : Cursor) : Except Fault ReadText :=
  let spaces := c.run isSpaceOrTab
  let c := c.pass isSpaceOrTab
  match c.next, c.lineBreak? with
  | none, _ => .error .malformed
  | some _, none => .ok (spaces, c)
  | some _, some first =>
    (continuation fuel [] c.step).map fun (others, c) => (folded first others, c)

/-- The largest number that is taken for a code point, whether there is one or not. -/
def pointLimit : Nat := 0x7FFFFFFF

/-- The code point with a number. -/
def numberedPoint (n : Nat) : Except Fault CodePoint :=
  if h : n < 0x110000 then .ok ⟨n, h⟩
  else .error (.scalar (if n ≤ pointLimit then .pointTooLarge else .pointTooLong))

/-- What an escape sequence stands for, given the position after its backslash. -/
def escape (fuel : Nat) (c : Cursor) : Except Fault ReadText := do
  let letter ← Fault.required c.next
  match entry? escapes letter, entry? escapeWidths letter with
  | some n, _ => return ([.ofNat n], c.step)
  | none, some width =>
    let digits := c.step.rest.take width
    let n ← Fault.required (if digits.length = width then hexNumber? digits else none)
    return ([← numberedPoint n], c.step.skip width)
  | none, none => if isBreak letter then continuation fuel [] c.step else .error .malformed

/-- A text between quotation marks, up to the closing mark; `double` tells which marks. -/
def quotedText (double : Bool) : Nat → Text → Cursor → Except Fault ReadText
  | 0, _, _ => .error .malformed
  | fuel + 1, acc, c =>
    match c.next with
    | none => .error .malformed
    | some p =>
      if isGap p then do
        let (gap, c) ← quotedGap fuel c
        quotedText double fuel (acc ++ gap) c
      else if double && p = '\\' then do
        let (text, c) ← escape fuel c.step
        quotedText double fuel (acc ++ text) c
      else if double && p = '"' then .ok (acc, c.step)
      else if !double && p = '\'' then
        if c.peek 1 = some (CodePoint.ofChar '\'') then
          quotedText double fuel (acc ++ [p]) (c.skip 2)
        else .ok (acc, c.step)
      else quotedText double fuel (acc ++ [p]) c.step

/-! ## Plain -/

/-- Whether a plain scalar ends before the code point at a distance. -/
def endsPlain (inFlow : Bool) (c : Cursor) (n : Nat) : Bool :=
  match c.peek n with
  | none => true
  | some p =>
    isGap p
      || (p = ':' && endOr (fun q => isGap q || (inFlow && among ",[]\x7b\x7d" q)) (c.peek (n + 1)))
      || (inFlow && among ",?[]\x7b\x7d" p)

/-- How many code points there are before a plain scalar ends. -/
def plainLength (inFlow : Bool) (c : Cursor) : Nat :=
  ((List.range c.rest.length).find? (endsPlain inFlow c)).getD c.rest.length

/-- The line breaks after the first one between two lines of a plain scalar. None if the document
ends or begins anew there. -/
def plainBreaks : Nat → Text → Cursor → Option Text × Cursor
  | 0, _, c => (none, c)
  | fuel + 1, breaks, c =>
    if c.next = some (CodePoint.ofChar ' ') then plainBreaks fuel breaks c.step
    else match c.lineBreak? with
      | none => (some breaks, c)
      | some b =>
        let c := c.step
        if c.atBoundary then (none, c) else plainBreaks fuel (breaks ++ [b]) c

/-- What stands between two words of a plain scalar, the position after it, and whether a line was
ended. Nothing at all ends the scalar. -/
def plainGap (fuel : Nat) (c : Cursor) : Text × Cursor × Bool :=
  let spaces := c.run (· = CodePoint.ofChar ' ')
  let c := c.pass (· = CodePoint.ofChar ' ')
  match c.lineBreak? with
  | none => (spaces, c, false)
  | some first =>
    let c := c.step
    if c.atBoundary then ([], c, true)
    else match plainBreaks fuel [] c with
      | (some others, c) => (folded first others, c, true)
      | (none, c) => ([], c, true)

/-- A plain scalar whose continued lines are indented by at least `indent`. Also tells whether the
position after it starts a line. -/
def plainText (inFlow : Bool) (indent : Int) : Nat → Text → Text → Bool → Cursor →
    Text × Cursor × Bool
  | 0, acc, _, lineStart, c => (acc, c, lineStart)
  | fuel + 1, acc, gap, lineStart, c =>
    let length := plainLength inFlow c
    if c.next = some (CodePoint.ofChar '#') || length = 0 then (acc, c, lineStart)
    else
      let acc := acc ++ gap ++ c.rest.take length
      let (gap, c, ended) := plainGap c.rest.length (c.skip length)
      if gap = [] || c.next = some (CodePoint.ofChar '#') || (!inFlow && (c.column : Int) < indent)
      then (acc, c, ended)
      else plainText inFlow indent fuel acc gap ended c

/-! ## Blocks -/

/-- What becomes of the line breaks at the end of a block. -/
inductive Chomping where
  | strip
  | clip
  | keep
  deriving DecidableEq, Repr

/-- The chomping that a sign asks for. -/
def chomping? (c : CodePoint) : Option Chomping :=
  if c = '+' then some .keep else if c = '-' then some .strip else none

/-- The header of a block: its chomping and the indentation it gives, in either order. -/
def blockHeader (c : Cursor) : Option (Chomping × Option Nat × Cursor) := do
  let sign := c.next.bind chomping?
  let (sign, increment, c) :=
    match sign with
    | some _ =>
      let c := c.step
      match c.next.bind (CodePoint.digitIn? 10) with
      | some n => (sign, some n, c.step)
      | none => (sign, none, c)
    | none =>
      match c.next.bind (CodePoint.digitIn? 10) with
      | none => (none, none, c)
      | some n =>
        let c := c.step
        match c.next.bind chomping? with
        | some s => (some s, some n, c.step)
        | none => (none, some n, c)
  if increment = some 0 || !endOr isSpaceOrBreak c.next then none
  else
    let c ← c.blankLine?
    return (sign.getD .clip, increment, c)

/-- The blank lines before a block, and the deepest indentation among them and of its first line. -/
def blockIndentation : Nat → Text → Nat → Cursor → Text × Nat × Cursor
  | 0, breaks, deepest, c => (breaks, deepest, c)
  | fuel + 1, breaks, deepest, c =>
    match c.lineBreak? with
    | some b => blockIndentation fuel (breaks ++ [b]) deepest c.step
    | none =>
      if c.next = some (CodePoint.ofChar ' ') then
        let c := c.step
        blockIndentation fuel breaks (max deepest c.column) c
      else (breaks, deepest, c)

/-- Passes spaces up to a column. -/
def indentTo (indent : Nat) (c : Cursor) : Cursor :=
  c.skip (min (indent - c.column) (c.run (· = CodePoint.ofChar ' ')).length)

/-- The blank lines inside a block. -/
def blockBreaks (indent : Nat) : Nat → Text → Cursor → ReadText
  | 0, breaks, c => (breaks, c)
  | fuel + 1, breaks, c =>
    let c := indentTo indent c
    match c.lineBreak? with
    | some b => blockBreaks indent fuel (breaks ++ [b]) c.step
    | none => (breaks, c)

/-- Whether a line of a block starts at a cursor. -/
def atBlockLine (indent : Nat) (c : Cursor) : Bool := c.column = indent && c.next.isSome

/-- The lines of a block: its text without the breaks at the end, the break of the last line and the
blank lines after it. -/
def blockLines (fold : Bool) (indent : Nat) : Nat → Text → Text → Text → Cursor →
    Text × Text × Text × Cursor
  | 0, acc, lastBreak, breaks, c => (acc, lastBreak, breaks, c)
  | fuel + 1, acc, lastBreak, breaks, c =>
    if !atBlockLine indent c then (acc, lastBreak, breaks, c)
    else
      let startsWithText := !holds isSpaceOrTab c.next
      let line := c.run (! isBreak ·)
      let c := c.pass (! isBreak ·)
      let lineBreak := c.lineBreak?.toList
      let c := if lineBreak = [] then c else c.step
      let acc := acc ++ breaks ++ line
      let (breaks, c) := blockBreaks indent fuel [] c
      if !atBlockLine indent c then (acc, lineBreak, breaks, c)
      else
        let joins := fold && lineBreak = [CodePoint.ofChar '\n'] && startsWithText
          && !holds isSpaceOrTab c.next
        let between :=
          if joins then (if breaks = [] then [CodePoint.ofChar ' '] else []) else lineBreak
        blockLines fold indent fuel (acc ++ between) lineBreak breaks c

/-- A block scalar below a given indentation, from the position after its indicator. -/
def blockText (fold : Bool) (indent : Int) (c : Cursor) : Except Fault ReadText := do
  let (chomping, increment, c) ← Fault.required (blockHeader c)
  let least := (max 1 (indent + 1)).toNat
  let fuel := c.rest.length + 1
  let (breaks, indent, c) :=
    match increment with
    | none =>
      let (breaks, deepest, c) := blockIndentation fuel [] 0 c
      (breaks, max least deepest, c)
    | some n =>
      let indent := least + n - 1
      let (breaks, c) := blockBreaks indent fuel [] c
      (breaks, indent, c)
  let (text, lastBreak, breaks, c) := blockLines fold indent fuel [] [] breaks c
  let ending := match chomping with
    | .strip => []
    | .clip => lastBreak
    | .keep => lastBreak ++ breaks
  return (text ++ ending, c)

end BundleManifest.Yaml
