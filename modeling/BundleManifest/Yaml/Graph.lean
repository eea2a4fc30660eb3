/-
# BundleManifest.Yaml.Graph — the nodes that a document describes

Nodes are kept under numbers, because a node can be used in several places, even inside itself.
`Graph.takeEntries` lets a map take the entries that its merge keys ask for: they come before its
own, and a map that takes entries from itself while it is doing so is taken as it is then.
-/
import BundleManifest.Yaml.Fault
import BundleManifest.Yaml.Tag

namespace BundleManifest.Yaml

/-- The number of a node. -/
abbrev NodeId := Nat

/-- A key and its value. -/
abbrev Entry := NodeId × NodeId

/-- What a node holds. -/
inductive Content where
  | scalar (text : Text)
  | sequence (items : List NodeId)
  | mapping (entries : List Entry)
  deriving DecidableEq, Repr

/-- A node of a document. -/
structure Node where
  tag : Tag
  content : Content
  deriving DecidableEq, Repr

/-- The nodes of a document under their numbers. -/
structure Graph where
  nodes : Array Node := #[]
  deriving Repr

namespace Graph

/-- The node under a number. -/
def node? (g : Graph) (i : NodeId) : Option Node := g.nodes[i]?

/-- The graph with one more node, which gets the next number. -/
def add (g : Graph) (n : Node) : Graph := { g with nodes := g.nodes.push n }

/-- The graph with another node under a number in use. -/
def set (g : Graph) (i : NodeId) (n : Node) : Graph :=
  { g with nodes := g.nodes.setIfInBounds i n }

/-- Whether a node has a tag. -/
def hasTag (g : Graph) (tag : Tag) (i : NodeId) : Bool := (g.node? i).any fun n => n.tag == tag

/-- The graph in which a node has another tag. -/
def retag (g : Graph) (tag : Tag) (i : NodeId) : Graph :=
  match g.node? i with
  | some n => g.set i { n with tag }
  | none => g

/-- The graph in which a node has another content. -/
def fill (g : Graph) (i : NodeId) (content : Content) : Graph :=
  match g.node? i with
  | some n => g.set i { n with content }
  | none => g

/-- The entries of a map; none if the node is no map. -/
def entries? (g : Graph) (i : NodeId) : Option (List Entry) :=
  match g.node? i with
  | some ⟨_, .mapping entries⟩ => some entries
  | _ => none

/-! ## Taking entries from other maps -/

/-- The entries that a node gives: those of a map, once it has taken its own, or those of all maps
of a list. Of two maps in a list the first counts more, so its entries come last. -/
def given (prepare : NodeId → Graph → Except Fault Graph) (source : NodeId) (g : Graph) :
    Except Fault (List Entry × Graph) := do
  let one (source : NodeId) (g : Graph) : Except Fault (List Entry × Graph) := do
    let _ ← Fault.required (g.entries? source)
    let g ← prepare source g
    return (← Fault.required (g.entries? source), g)
  match g.node? source with
  | some ⟨_, .sequence items⟩ =>
    items.foldlM (fun (entries, g) item => do
      let (more, g) ← one item g
      return (more ++ entries, g)) ([], g)
  | _ => one source g

/-- Lets a map take entries until it has no merge key left. `taken` are the entries that it has
taken. A key that is a plain equals sign is an ordinary text from then on. -/
def takeEntriesAfter : Nat → List Entry → NodeId → Graph → Except Fault Graph
  | 0, _, _, _ => .error .malformed
  | fuel + 1, taken, i, g => do
    let entries ← Fault.required (g.entries? i)
    let before := entries.takeWhile fun e => !g.hasTag .merge e.1
    match entries.drop before.length with
    | [] =>
      let g := g.fill i (.mapping (taken ++ entries))
      return entries.foldl (fun g e => if g.hasTag .value e.1 then g.retag .str e.1 else g) g
    | (_, source) :: after =>
      let g := g.fill i (.mapping (before ++ after))
      let (more, g) ← given (takeEntriesAfter fuel []) source g
      takeEntriesAfter fuel (taken ++ more) i g

/-- The number of merge keys in a graph. Every step of taking entries removes one of them. -/
def mergeCount (g : Graph) : Nat :=
  let entries := (List.range g.nodes.size).flatMap fun i => (g.entries? i).getD []
  entries.countP fun e => g.hasTag .merge e.1

/-- Lets a map take the entries that its merge keys ask for. -/
def takeEntries (i : NodeId) (g : Graph) : Except Fault Graph :=
  takeEntriesAfter (g.mergeCount + 1) [] i g

end Graph

end BundleManifest.Yaml
