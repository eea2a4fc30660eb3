/-
# BundleManifest.Yaml.Document — what a document describes

`Document.ofText` builds the objects that the nodes of a document stand for, one object for each
node. A list or map is there at once and gets its items later, because it may hold itself: what
waits for its items is worked off in the order in which it was met. `Document.value` writes an
object out as a value.
-/
import BundleManifest.Yaml.Reading
import BundleManifest.Yaml.Scalar

namespace BundleManifest.Yaml

/-- What a node stands for. What objects hold is named by the numbers of its nodes. -/
inductive Object where
  | atom (value : Value)
  | list (items : List NodeId)
  | map (entries : List Entry)
  | set (items : List NodeId)
  /-- A list of keys with their values, where keys may come more than once. -/
  | pairs (entries : List Entry)
  deriving Repr

namespace Object

/-- The object of a list or map before it gets its items; none for other tags. -/
def empty? : Tag → Option Object
  | .seq => some (.list [])
  | .map => some (.map [])
  | .set => some (.set [])
  | .omap | .pairs => some (.pairs [])
  | _ => none

end Object

/-- What has been built so far. -/
structure Construction where
  graph : Graph
  /-- The objects of the nodes that have been met. -/
  objects : Array (Option Object)
  /-- The nodes whose objects wait for their items, in the order in which they were met. -/
  waiting : List NodeId := []
  deriving Repr

/-- A step of building, which may fail. -/
abbrev Builder := StateT Construction (Except Fault)

namespace Builder

/-- Refuses the document. -/
def malformed {α : Type} : Builder α := throw .malformed

/-- The object of a node that has been met. -/
def object? (i : NodeId) : Builder (Option Object) := do return (← get).objects[i]?.join

/-- Gives a node its object. -/
def setObject (i : NodeId) (o : Object) : Builder Unit :=
  modify fun c => { c with objects := c.objects.setIfInBounds i (some o) }

/-- Makes sure that a node has an object. -/
def build (i : NodeId) : Builder Unit := do
  if (← object? i).isSome then return ()
  let g := (← get).graph
  match (g.node? i).bind fun n => Object.empty? n.tag with
  | some o =>
    -- its items may hold the node itself, so they are built later
    setObject i o
    modify fun c => { c with waiting := c.waiting ++ [i] }
  | none => setObject i (.atom (← g.scalarAt i))

/-- The value of a node that is no list or map. -/
def atom? (i : NodeId) : Builder (Option Value) := do
  match ← object? i with
  | some (.atom v) => return some v
  | _ => return none

/-- Whether the objects of two nodes are one: those of the same node are, and so is the number that
is none wherever its word is written. -/
def isOne (g : Graph) (i j : NodeId) : Bool :=
  let isWord (i : NodeId) : Bool :=
    g.hasTag .float i && (g.scalarText (g.nodes.size + 1) i).toOption.any isNotNumberWord
  i == j || (isWord i && isWord j)

/-- Whether two nodes are the same key. -/
def isSameKey (i j : NodeId) : Builder Bool := do
  if isOne (← get).graph i j then return true
  match ← atom? i, ← atom? j with
  | some v, some w => return v.sameKey w
  | _, _ => return false

/-- The entries after a key is given a value. A key that is present keeps its place. -/
def put (key value : NodeId) : List Entry → Builder (List Entry)
  | [] => return [(key, value)]
  | e :: entries => do
    if ← isSameKey e.1 key then return (e.1, value) :: entries
    else return e :: (← put key value entries)

/-- Builds the keys and values of a map. What holds other values is no key. -/
def entries : List Entry → List Entry → Builder (List Entry)
  | done, [] => return done
  | done, (key, value) :: rest => do
    build key
    if (← atom? key).isNone then malformed
    build value
    entries (← put key value done) rest

/-- Builds the entries of a node that has to be a map, once it has taken those of other maps. -/
def entriesAt (i : NodeId) : Builder (List Entry) := do
  let c ← get
  if (c.graph.entries? i).isNone then malformed
  -- the graph keeps what the node has taken: a later node may take it from there
  let g ← c.graph.takeEntries i
  set { c with graph := g }
  entries [] ((g.entries? i).getD [])

/-- The items of a node that has to be a list. -/
def itemsAt (i : NodeId) : Builder (List NodeId) := do
  match (← get).graph.node? i with
  | some ⟨_, .sequence items⟩ => return items
  | _ => malformed

/-- Builds the only entry of a node that has to be a map. -/
def pairAt (i : NodeId) : Builder Entry := do
  match (← get).graph.entries? i with
  | some [(key, value)] =>
    build key
    build value
    return (key, value)
  | _ => malformed

/-- Gives the object of a node its items. -/
def complete (i : NodeId) : Builder Unit := do
  match ← object? i with
  | some (.list _) =>
    let items ← itemsAt i
    items.forM build
    setObject i (.list items)
  | some (.map _) => setObject i (.map (← entriesAt i))
  | some (.set _) => setObject i (.set ((← entriesAt i).map (·.1)))
  | some (.pairs _) => setObject i (.pairs (← (← itemsAt i).mapM pairAt))
  | _ => return ()

/-- Works off what waits for its items. A node waits once only, which bounds the number of steps. -/
def completeAll : Nat → Builder Unit
  | 0 => return ()
  | fuel + 1 => do
    match (← get).waiting with
    | [] => return ()
    | i :: rest =>
      modify fun c => { c with waiting := rest }
      complete i
      completeAll fuel

/-- Builds a node and everything in it. -/
def buildAll (i : NodeId) : Builder Unit := do
  build i
  completeAll ((← get).graph.nodes.size + 1)

end Builder

/-- The objects that the nodes of a document stand for, and the root; a text without any document
has none. -/
structure Document where
  root : Option NodeId := none
  objects : Array (Option Object) := #[]
  deriving Repr

namespace Document

/-- Whether a code point may stand in a document. -/
def isAllowed (c : CodePoint) : Bool :=
  let n := c.val
  n == 0x09 || n == 0x0A || n == 0x0D || (0x20 ≤ n && n ≤ 0x7E) || n == 0x85
    || (0xA0 ≤ n && n ≤ 0xD7FF) || (0xE000 ≤ n && n ≤ 0xFFFD) || 0x10000 ≤ n

/-- The document that a text describes. -/
def ofText (t : Text) : Except Fault Document := do
  if !t.all isAllowed then throw .malformed
  let (root, graph) ← Graph.ofText? t
  match root with
  | none => return {}
  | some i =>
    let objects := Array.replicate graph.nodes.size none
    let ((), c) ← (Builder.buildAll i).run { graph, objects }
    return { root, objects := c.objects }

/-- The object of a node. -/
def object? (d : Document) (i : NodeId) : Option Object := d.objects[i]?.join

/-- Writes out the object of a node down to a depth. Objects that are already open around it are
only named. -/
def valueWithin (d : Document) : Nat → List NodeId → NodeId → Value
  | 0, _, _ => .null
  | depth + 1, around, i =>
    let inner := valueWithin d depth (i :: around)
    let isOpen := around.contains i
    match d.object? i with
    | some (.atom v) => v
    | some (.list items) => if isOpen then .enclosing .list else .list (items.map inner)
    | some (.map entries) =>
      if isOpen then .enclosing .map else .map (entries.map fun (k, v) => (inner k, inner v))
    | some (.set items) => .set (items.map inner)
    | some (.pairs entries) =>
      if isOpen then .enclosing .list
      else .list (entries.map fun (k, v) => .pair (inner k) (inner v))
    | none => .null

/-- The object of a node as a value. No object is open twice, so the number of objects is deep
enough. -/
def value (d : Document) (i : NodeId) : Value := d.valueWithin (d.objects.size + 1) [] i

/-- The entries of the root; a document whose root is no map has none. -/
def rootEntries (d : Document) : List Entry :=
  match d.root.bind d.object? with
  | some (.map entries) => entries
  | _ => []

/-- The map that a document describes. -/
def entries (d : Document) : List (Value × Value) :=
  d.rootEntries.map fun (k, v) => (d.value k, d.value v)

/-- The value under a name in the map that a document describes. -/
def get? (d : Document) (name : Text) : Option Value :=
  let isKey (e : Entry) : Bool :=
    match d.object? e.1 with
    | some (.atom (.text t)) => t = name
    | _ => false
  (d.rootEntries.find? isKey).map fun e => d.value e.2

end Document

end BundleManifest.Yaml
