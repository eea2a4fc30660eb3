/-
# BundleManifest.Yaml.Reading — from tokens to nodes

A `Reader` takes tokens one after the other and builds the graph of a single document. An anchor
names a node, and an alias stands for the node named before; a name is given once only. The name of
a list or map can be used inside it. Everything is done in the order of the document, and no token
is looked at before it matters, so that of two faults the first one is found.
-/
import BundleManifest.Yaml.Graph
import BundleManifest.Yaml.Lexer

namespace BundleManifest.Yaml

/-- What is left to read, and what has been read. -/
structure Reading where
  lexer : Lexer
  /-- What the handles of tags stand for. -/
  handles : List (Text × Text) := []
  graph : Graph := {}
  /-- The named nodes. -/
  anchors : List (Text × NodeId) := []

/-- A step of reading, which may fail. -/
abbrev Reader := StateT Reading (Except Fault)

namespace Reader

/-- The document is not well-formed. -/
def malformed {α : Type} : Reader α := throw .malformed

/-! ## Tokens -/

/-- The next token. -/
def peek : Reader (Option Token) := do
  let r ← get
  let (t, lexer) ← r.lexer.next?
  set { r with lexer }
  return t

/-- Passes the next token. -/
def advance : Reader Unit := modify fun r => { r with lexer := r.lexer.take }

/-- Passes the next token if it is a given one, and tells whether it was. -/
def accept (t : Token) : Reader Bool := do
  if (← peek) = some t then
    advance
    return true
  else return false

/-- Passes a token that has to come next. -/
def expect (t : Token) : Reader Unit := do
  if (← accept t) then return () else malformed

/-- Whether one of some tokens comes next. -/
def comes (choices : List Token) : Reader Bool := do
  match ← peek with
  | some t => return choices.contains t
  | none => return false

/-! ## Nodes under construction -/

/-- Adds a node. -/
def addNode (n : Node) : Reader NodeId := do
  let i := (← get).graph.nodes.size
  modify fun r => { r with graph := r.graph.add n }
  return i

/-- Adds the node that stands where nothing is written. -/
def nothing : Reader NodeId := addNode ⟨.null, .scalar []⟩

/-- What is written before a node: a name, and a tag. -/
structure Properties where
  anchor : Option Text := none
  tag : Option Text := none

/-- The tag that a handle and a suffix denote. -/
def tagName (handle : Option Text) (suffix : Text) : Reader Text := do
  match handle with
  | none => return suffix
  | some handle =>
    match (← get).handles.lookup handle with
    | some beginning => return beginning ++ suffix
    | none => malformed

/-- Reads what is written before a node: a name and a tag, in either order. -/
def properties : Reader Properties := do
  match ← peek with
  | some (.anchor name) =>
    advance
    match ← peek with
    | some (.tag handle suffix) =>
      advance
      return ⟨some name, some (← tagName handle suffix)⟩
    | _ => return ⟨some name, none⟩
  | some (.tag handle suffix) =>
    advance
    match ← peek with
    | some (.anchor name) =>
      advance
      return ⟨some name, some (← tagName handle suffix)⟩
    | _ => return ⟨none, some (← tagName handle suffix)⟩
  | _ => return {}

/-- The tag that asks for what follows from how the node is written. -/
def unspecific : Text := "!"

/-- The tag of a node: the given one, or else one that follows from how the node is written. -/
def tagOr (given : Option Text) (implied : Tag) : Tag :=
  match given with
  | none => implied
  | some name => if name = unspecific then implied else .ofName name

/-- The tag that follows from how a scalar is written. -/
def scalarTag (given : Option Text) (text : Text) (plain : Bool) : Tag :=
  tagOr given (if plain || given = some unspecific then .ofPlain text else .str)

/-- Refuses a name that is in use. -/
def checkUnused (anchor : Option Text) : Reader Unit := do
  match anchor with
  | none => return ()
  | some name => if ((← get).anchors.lookup name).isSome then malformed

/-- Adds a node that may have a name. -/
def addNamed (anchor : Option Text) (n : Node) : Reader NodeId := do
  let i ← addNode n
  match anchor with
  | none => return i
  | some name =>
    modify fun r => { r with anchors := (name, i) :: r.anchors }
    return i

/-- Adds a list that may have a name, and then its items. -/
def addSequence (p : Properties) (items : Reader (List NodeId)) : Reader NodeId := do
  let i ← addNamed p.anchor ⟨tagOr p.tag .seq, .sequence []⟩
  let items ← items
  modify fun r => { r with graph := r.graph.fill i (.sequence items) }
  return i

/-- Adds a map that may have a name, and then its entries. -/
def addMapping (p : Properties) (entries : Reader (List Entry)) : Reader NodeId := do
  let i ← addNamed p.anchor ⟨tagOr p.tag .map, .mapping []⟩
  let entries ← entries
  modify fun r => { r with graph := r.graph.fill i (.mapping entries) }
  return i

/-- Adds a scalar that may have a name. -/
def addScalar (p : Properties) (text : Text) (plain : Bool) : Reader NodeId :=
  addNamed p.anchor ⟨scalarTag p.tag text plain, .scalar text⟩

/-- Adds a node of which nothing but a name or a tag is written. -/
def addBare (p : Properties) : Reader NodeId :=
  if p.anchor.isNone && p.tag.isNone then malformed else addScalar p [] p.tag.isNone

/-- The node that a name stands for. -/
def named (name : Text) : Reader NodeId := do
  match (← get).anchors.lookup name with
  | some i => return i
  | none => malformed

/-! ## Nodes -/

/-- The tokens before which a node of a block map or list is left out. -/
def blockGaps : List Token := [.key, .value, .blockEnd]

/-- The tokens before which an entry of a list without indentation is left out. -/
def looseGaps : List Token := [.blockEntry, .key, .value, .blockEnd]

mutual

/-- Reads a node. In a block it may be a block itself; as a value in a block map it may be a list
whose entries are not indented. -/
def node (inBlock loose : Bool) : Nat → Reader NodeId
  | 0 => malformed
  | fuel + 1 => do
    if let some (.alias name) ← peek then
      advance
      named name
    else
      let p ← properties
      let next ← peek
      checkUnused p.anchor
      match next with
      | some .blockEntry => if loose then addSequence p (looseItems fuel) else addBare p
      | some (.scalar text plain) =>
        advance
        addScalar p text plain
      | some .flowSequenceStart =>
        addSequence p do
          advance
          flowItems fuel true
      | some .flowMappingStart =>
        addMapping p do
          advance
          flowEntries fuel true
      | some .blockSequenceStart =>
        if inBlock then
          addSequence p do
            advance
            blockItems fuel
        else addBare p
      | some .blockMappingStart =>
        if inBlock then
          addMapping p do
            advance
            blockEntries fuel
        else addBare p
      | _ => addBare p

/-- Reads a node unless one of some tokens comes next. -/
def nodeUnless (gaps : List Token) (inBlock loose : Bool) : Nat → Reader NodeId
  | 0 => malformed
  | fuel + 1 => do
    if ← comes gaps then nothing else node inBlock loose fuel

/-- Reads the value after a key, if there is one. -/
def valueUnless (gaps : List Token) (inBlock loose : Bool) : Nat → Reader NodeId
  | 0 => malformed
  | fuel + 1 => do
    if ← accept .value then nodeUnless gaps inBlock loose fuel else nothing

/-- Reads the entries of a block list. -/
def blockItems : Nat → Reader (List NodeId)
  | 0 => malformed
  | fuel + 1 => do
    if ← accept .blockEntry then
      let item ← nodeUnless [.blockEntry, .blockEnd] true false fuel
      return item :: (← blockItems fuel)
    else
      expect .blockEnd
      return []

/-- Reads the entries of a block list that is not indented. -/
def looseItems : Nat → Reader (List NodeId)
  | 0 => malformed
  | fuel + 1 => do
    if ← accept .blockEntry then
      let item ← nodeUnless looseGaps true false fuel
      return item :: (← looseItems fuel)
    else return []

/-- Reads the entries of a block map. -/
def blockEntries : Nat → Reader (List Entry)
  | 0 => malformed
  | fuel + 1 => do
    if ← accept .key then
      let key ← nodeUnless blockGaps true true fuel
      let value ← valueUnless blockGaps true true fuel
      return (key, value) :: (← blockEntries fuel)
    else
      expect .blockEnd
      return []

/-- Reads the items of a list in brackets. -/
def flowItems : Nat → Bool → Reader (List NodeId)
  | 0, _ => malformed
  | fuel + 1, first => do
    if ← accept .flowSequenceEnd then return []
    else
      if !first then expect .flowEntry
      if ← comes [.key] then
        let item ← addMapping {} do
          advance
          let key ← nodeUnless [.value, .flowEntry, .flowSequenceEnd] false false fuel
          return [(key, ← valueUnless [.flowEntry, .flowSequenceEnd] false false fuel)]
        return item :: (← flowItems fuel false)
      else if ← accept .flowSequenceEnd then return []
      else
        let item ← node false false fuel
        return item :: (← flowItems fuel false)

/-- Reads the entries of a map in brackets. -/
def flowEntries : Nat → Bool → Reader (List Entry)
  | 0, _ => malformed
  | fuel + 1, first => do
    if ← accept .flowMappingEnd then return []
    else
      if !first then expect .flowEntry
      if ← accept .key then
        let key ← nodeUnless [.value, .flowEntry, .flowMappingEnd] false false fuel
        let value ← valueUnless [.flowEntry, .flowMappingEnd] false false fuel
        return (key, value) :: (← flowEntries fuel false)
      else if ← accept .flowMappingEnd then return []
      else
        let key ← node false false fuel
        let value ← nothing
        return (key, value) :: (← flowEntries fuel false)

end

/-! ## Documents -/

/-- The handles that need no directive. -/
def standardHandles : List (Text × Text) := [("!", "!"), ("!!", Tag.standard)]

/-- Reads the directives before a document and gives the handles that they declare. A handle is
declared once, and so is the version, whose first number is one. -/
def directives : Nat → Bool → List (Text × Text) → Reader (List (Text × Text))
  | 0, _, _ => malformed
  | fuel + 1, versioned, handles => do
    match ← peek with
    | some (.directive d) =>
      advance
      match d with
      | .version major =>
        if versioned || major != 1 then malformed else directives fuel true handles
      | .handle name beginning =>
        if (handles.lookup name).isSome then malformed
        else directives fuel versioned ((name, beginning) :: handles)
      | .other => directives fuel versioned handles
    | _ => return handles ++ standardHandles

/-- Passes all ends of documents. -/
def documentEnds : Nat → Reader Unit
  | 0 => return ()
  | fuel + 1 => do
    if ← accept .documentEnd then documentEnds fuel

/-- Reads the first document, if there is one, and gives its root. -/
def firstDocument (fuel : Nat) : Reader (Option NodeId) := do
  match ← peek with
  | none => return none
  | some (.directive _) | some .documentStart =>
    let handles ← directives fuel false []
    expect .documentStart
    modify fun r => { r with handles }
    match ← peek with
    | none | some (.directive _) | some .documentStart | some .documentEnd => some <$> nothing
    | some _ => some <$> node true false fuel
  | some _ =>
    modify fun r => { r with handles := standardHandles }
    some <$> node true false fuel

/-- Reads the only document, if there is one, and gives its root. A second document is refused once
its directives have been read. -/
def document (fuel : Nat) : Reader (Option NodeId) := do
  let root ← firstDocument fuel
  documentEnds fuel
  match ← peek with
  | none => return root
  | some _ =>
    let _ ← directives fuel false []
    malformed

end Reader

/-- The graph of the only document of a text, and its root; there may be no document. -/
def Graph.ofText? (t : Text) : Except Fault (Option NodeId × Graph) := do
  let (root, r) ← (Reader.document (16 * (t.length + 2))).run { lexer := Lexer.start t }
  return (root, r.graph)

end BundleManifest.Yaml
