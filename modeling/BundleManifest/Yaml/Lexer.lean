/-
# BundleManifest.Yaml.Lexer — cutting a document into tokens, as far as they are asked for

`Lexer.next?` looks at the next token of a document and `Lexer.take` passes it. A key need not be
marked, so what may turn out to be a key is remembered with its place, and the mark is put there
when its colon comes. The document is cut no further than it takes to know the next token, because
what lies beyond may be malformed and another fault may come first.
-/
import BundleManifest.Yaml.Token

namespace BundleManifest.Yaml

/-- A token that may turn out to start a key. -/
structure PossibleKey where
  level : Nat
  /-- The number of tokens before it. -/
  place : Nat
  required : Bool
  index : Nat
  line : Nat
  column : Nat
  deriving DecidableEq, Repr

/-- What is known while a document is cut into tokens. -/
structure Lexer where
  cursor : Cursor
  /-- The tokens that have been cut and not been taken yet. -/
  waiting : List Token := []
  /-- The number of tokens that have been taken. -/
  taken : Nat := 0
  /-- Whether the end of the document has been reached. -/
  done : Bool := false
  flowLevel : Nat := 0
  indent : Int := -1
  /-- The indentations of the enclosing blocks. -/
  outer : List Int := []
  /-- Whether a key may start here. -/
  keyAllowed : Bool := true
  keys : List PossibleKey := []
  deriving Repr

namespace Lexer

/-- Whether the cursor is inside brackets. -/
def inFlow (l : Lexer) : Bool := l.flowLevel != 0

/-- Adds a token. -/
def push (l : Lexer) (t : Token) : Lexer := { l with waiting := l.waiting ++ [t] }

/-- Puts a token before one that has not been taken yet. -/
def insert (l : Lexer) (place : Nat) (t : Token) : Lexer :=
  { l with waiting := l.waiting.insertIdx (place - l.taken) t }

/-- Passes the code points of an indicator and adds its token. -/
def pushAfter (l : Lexer) (n : Nat) (t : Token) : Lexer :=
  { l.push t with cursor := l.cursor.skip n }

/-! ## Keys -/

/-- The most code points that an unmarked key may take. -/
def keyLimit : Nat := 1024

/-- Whether an unmarked key can no longer start at a remembered place. -/
def isStale (l : Lexer) (k : PossibleKey) : Bool :=
  k.line != l.cursor.line || keyLimit < l.cursor.index - k.index

/-- Forgets the places where a key can no longer start; one that has to be a key may not be
forgotten. -/
def dropStaleKeys (l : Lexer) : Except Fault Lexer :=
  if l.keys.any fun k => l.isStale k && k.required then .error .malformed
  else .ok { l with keys := l.keys.filter fun k => !l.isStale k }

/-- Forgets the place remembered at the current level. -/
def dropKey (l : Lexer) : Except Fault Lexer :=
  if l.keys.any fun k => k.level == l.flowLevel && k.required then .error .malformed
  else .ok { l with keys := l.keys.filter fun k => k.level != l.flowLevel }

/-- Remembers this place, if a key may start here. -/
def saveKey (l : Lexer) : Except Fault Lexer :=
  if !l.keyAllowed then .ok l
  else do
    -- at the indentation of a block nothing but a key may stand
    let required := !l.inFlow && l.indent = l.cursor.column
    let l ← l.dropKey
    let key : PossibleKey := {
      level := l.flowLevel
      place := l.taken + l.waiting.length
      required
      index := l.cursor.index
      line := l.cursor.line
      column := l.cursor.column }
    return { l with keys := key :: l.keys }

/-! ## Indentation -/

/-- Ends the blocks that are indented by more than a column. -/
def closeBlocks (column : Int) : List Int → Lexer → Lexer
  | [], l => l
  | outer :: others, l =>
    if column < l.indent then
      closeBlocks column others { l.push .blockEnd with indent := outer, outer := others }
    else l

/-- Ends blocks down to a column; inside brackets indentation means nothing. -/
def unwind (l : Lexer) (column : Int) : Lexer :=
  if l.inFlow then l else closeBlocks column l.outer l

/-- Starts a block if the column is beyond the indentation; tells whether it did. -/
def indentTo (l : Lexer) (column : Int) : Lexer × Bool :=
  if l.indent < column then ({ l with indent := column, outer := l.indent :: l.outer }, true)
  else (l, false)

/-- Starts a block here, if the column calls for one. -/
def openBlock (l : Lexer) (start : Token) : Lexer :=
  let (l, opened) := l.indentTo l.cursor.column
  if opened then l.push start else l

/-! ## Between tokens -/

/-- Passes spaces, comments and line breaks. After a line break a key may start, except inside
brackets. -/
def toNextToken : Nat → Lexer → Lexer
  | 0, l => l
  | fuel + 1, l =>
    let c := l.cursor.pass (· = CodePoint.ofChar ' ')
    -- a comment ends with its line
    let c := if c.next = some (CodePoint.ofChar '#') then c.pass (! isBreak ·) else c
    match c.lineBreak? with
    | some _ =>
      toNextToken fuel { l with cursor := c.step, keyAllowed := l.keyAllowed || !l.inFlow }
    | none => { l with cursor := c }

/-! ## One token -/

/-- Lets a token take the place of a key: an unmarked key may start at it, and none right after. -/
def keyed (l : Lexer) (read : Lexer → Except Fault (Token × Cursor)) : Except Fault Lexer := do
  let l ← l.saveKey
  let l := { l with keyAllowed := false }
  let (token, cursor) ← read l
  return { l.push token with cursor }

/-- A name after its indicator. -/
def named (l : Lexer) (make : Text → Token) : Except Fault Lexer :=
  l.keyed fun l => do
    let (name, c) ← Fault.required (Token.anchorName l.cursor.step)
    return (make name, c)

/-- An opening bracket. -/
def openFlow (l : Lexer) (start : Token) : Except Fault Lexer := do
  let l ← l.saveKey
  return { l.pushAfter 1 start with flowLevel := l.flowLevel + 1, keyAllowed := true }

/-- A closing bracket. -/
def closeFlow (l : Lexer) (finish : Token) : Except Fault Lexer := do
  let l ← l.dropKey
  if l.flowLevel = 0 then throw .malformed
  return { l.pushAfter 1 finish with flowLevel := l.flowLevel - 1, keyAllowed := false }

/-- A comma. -/
def flowEntry (l : Lexer) : Except Fault Lexer := do
  let l ← l.dropKey
  return { l.pushAfter 1 .flowEntry with keyAllowed := true }

/-- The dash of a list entry. -/
def blockEntry (l : Lexer) : Except Fault Lexer := do
  if !l.inFlow && !l.keyAllowed then throw .malformed
  let l := if l.inFlow then l else l.openBlock .blockSequenceStart
  let l ← { l with keyAllowed := true }.dropKey
  return l.pushAfter 1 .blockEntry

/-- The question mark of a marked key. -/
def markedKey (l : Lexer) : Except Fault Lexer := do
  if !l.inFlow && !l.keyAllowed then throw .malformed
  let l := if l.inFlow then l else l.openBlock .blockMappingStart
  let l ← { l with keyAllowed := !l.inFlow }.dropKey
  return l.pushAfter 1 .key

/-- Puts the mark of a key where the key starts, and starts a block there if the column calls for
one. -/
def markKey (l : Lexer) (k : PossibleKey) : Lexer :=
  let l := { l.insert k.place .key with keys := l.keys.filter fun k => k.level != l.flowLevel }
  if l.inFlow then l
  else
    -- the same place again, so that the block starts before the key
    let (l, opened) := l.indentTo k.column
    if opened then l.insert k.place .blockMappingStart else l

/-- The colon before a value. -/
def valueMark (l : Lexer) : Except Fault Lexer := do
  match l.keys.find? fun k => k.level == l.flowLevel with
  | some k => return { (l.markKey k).pushAfter 1 .value with keyAllowed := false }
  | none =>
    if !l.inFlow && !l.keyAllowed then throw .malformed
    let l := if l.inFlow then l else l.openBlock .blockMappingStart
    let l ← { l with keyAllowed := !l.inFlow }.dropKey
    return l.pushAfter 1 .value

/-- A marker at the start or end of a document. -/
def boundary (l : Lexer) (marker : Token) : Except Fault Lexer := do
  let l ← (l.unwind (-1)).dropKey
  return { l.pushAfter 3 marker with keyAllowed := false }

/-- A directive. -/
def directiveLine (l : Lexer) : Except Fault Lexer := do
  let l ← (l.unwind (-1)).dropKey
  let (d, cursor) ← Directive.read l.cursor.step
  return { l.push (.directive d) with cursor, keyAllowed := false }

/-- A block scalar. -/
def block (l : Lexer) (fold : Bool) : Except Fault Lexer := do
  let l ← { l with keyAllowed := true }.dropKey
  let (text, cursor) ← blockText fold l.indent l.cursor.step
  return { l.push (.scalar text false) with cursor }

/-- A scalar between quotation marks. -/
def quotedScalar (l : Lexer) (double : Bool) : Except Fault Lexer :=
  l.keyed fun l => do
    let (text, c) ← quotedText double (l.cursor.rest.length + 1) [] l.cursor.step
    return (.scalar text false, c)

/-- A plain scalar. Whether a key may follow depends on whether it ended its line. -/
def plainScalar (l : Lexer) : Except Fault Lexer := do
  let l ← l.saveKey
  let fuel := l.cursor.rest.length + 1
  let (text, cursor, lineStart) := plainText l.inFlow (l.indent + 1) fuel [] [] false l.cursor
  return { l.push (.scalar text true) with cursor, keyAllowed := lineStart }

/-- Whether a plain scalar may start here. -/
def startsPlain (l : Lexer) (p : CodePoint) : Bool :=
  (!isGap p && !among "-?:,[]\x7b\x7d#&*!|>'\"%@\x60" p)
    || (!endOr isGap (l.cursor.peek 1) && (p = '-' || (!l.inFlow && among "?:" p)))

/-- One more token, which starts with `p`. -/
def token (l : Lexer) (p : CodePoint) : Except Fault Lexer :=
  let c := l.cursor
  let spaced := endOr isGap (c.peek 1)
  if p = '%' && c.column = 0 then l.directiveLine
  else if c.column = 0 && c.atMarker "---" then l.boundary .documentStart
  else if c.column = 0 && c.atMarker "..." then l.boundary .documentEnd
  else if p = '[' then l.openFlow .flowSequenceStart
  else if p = '\x7b' then l.openFlow .flowMappingStart
  else if p = ']' then l.closeFlow .flowSequenceEnd
  else if p = '\x7d' then l.closeFlow .flowMappingEnd
  else if p = ',' then l.flowEntry
  -- without a gap after them these three may start a plain scalar
  else if p = '-' && spaced then l.blockEntry
  else if p = '?' && (l.inFlow || spaced) then l.markedKey
  else if p = ':' && (l.inFlow || spaced) then l.valueMark
  else if p = '*' then l.named .alias
  else if p = '&' then l.named .anchor
  else if p = '!' then l.keyed fun l => Fault.required (Token.tagToken l.cursor)
  else if p = '|' && !l.inFlow then l.block false
  else if p = '>' && !l.inFlow then l.block true
  else if p = '\'' then l.quotedScalar false
  else if p = '"' then l.quotedScalar true
  else if l.startsPlain p then l.plainScalar
  else .error .malformed

/-! ## The next token -/

/-- Cuts off at least one more token, or finds the end. -/
def fetch (l : Lexer) : Except Fault Lexer := do
  let l ← (toNextToken (l.cursor.rest.length + 1) l).dropStaleKeys
  let l := l.unwind l.cursor.column
  match l.cursor.next with
  | none => return { ← (l.unwind (-1)).dropKey with done := true, keyAllowed := false, keys := [] }
  | some p => l.token p

/-- Whether the next token is not known: there is none, or a key may start at it. -/
def lacksToken (l : Lexer) : Bool := l.waiting = [] || l.keys.any fun k => k.place == l.taken

/-- Cuts the document until the next token is known. Every step but the last passes a code point,
which bounds their number. -/
def fetchWhileLacking : Nat → Lexer → Except Fault Lexer
  | 0, l => .ok l
  | fuel + 1, l => do
    if l.done then return l
    let l ← if l.waiting = [] then pure l else l.dropStaleKeys
    if l.lacksToken then fetchWhileLacking fuel (← l.fetch) else return l

/-- The next token, if there is one, and the state in which it is known. -/
def next? (l : Lexer) : Except Fault (Option Token × Lexer) := do
  let l ← fetchWhileLacking (l.cursor.rest.length + 2) l
  return (l.waiting.head?, l)

/-- Passes the next token. -/
def take (l : Lexer) : Lexer := { l with waiting := l.waiting.drop 1, taken := l.taken + 1 }

/-- The beginning of a document; a byte order mark there is passed over. -/
def start (t : Text) : Lexer :=
  let c := Cursor.start t
  { cursor := if c.next = some byteOrderMark then c.step else c }

end Lexer

end BundleManifest.Yaml
