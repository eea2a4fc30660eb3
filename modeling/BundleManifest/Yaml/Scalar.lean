/-
# BundleManifest.Yaml.Scalar — the value of a scalar

A scalar is read according to its tag; a tag says how a scalar looks, and may still denote no value,
such as the 31st of June. A map can stand for a scalar: then the text is the one under the key that
is a plain equals sign.
-/
import BundleManifest.Text.Base64
import BundleManifest.Yaml.Graph
import BundleManifest.Yaml.Number
import BundleManifest.Yaml.Timestamp

namespace BundleManifest.Yaml

/-- The truth value that a word denotes. -/
def boolean (t : Text) : Except ScalarFault Bool :=
  let word := Text.lower t
  if Tag.isWord ["yes", "true", "on"] word then .ok true
  else if Tag.isWord ["no", "false", "off"] word then .ok false
  else .error (.notBoolean word)

/-- The value of a text with a tag. -/
def scalarValue (tag : Tag) (t : Text) : Except Fault Value :=
  match tag with
  | .null => .ok .null
  | .str => .ok (.text t)
  | .bool => ((boolean t).map Value.bool).mapError .scalar
  | .int => ((integer t).map Value.int).mapError .scalar
  | .float => ((real t).map Value.real).mapError .scalar
  | .binary => (Fault.required (Base64.decode? t)).map Value.bytes
  | .timestamp => (timestamp t).mapError .scalar
  | .seq | .map | .set | .omap | .pairs | .merge | .value | .other _ => .error .malformed

namespace Graph

/-- The text that a node has as a scalar. A map that stands for itself has none. -/
def scalarText (g : Graph) : Nat → NodeId → Except Fault Text
  | 0, _ => .error (.scalar .endless)
  | depth + 1, i =>
    match g.node? i with
    | some ⟨_, .scalar t⟩ => .ok t
    | some ⟨_, .mapping entries⟩ =>
      match entries.find? fun e => g.hasTag .value e.1 with
      | some (_, source) => scalarText g depth source
      | none => .error .malformed
    | _ => .error .malformed

/-- The value that a node has as a scalar. A day or moment has to be written out. -/
def scalarAt (g : Graph) (i : NodeId) : Except Fault Value := do
  let n ← Fault.required (g.node? i)
  let t ← g.scalarText (g.nodes.size + 1) i
  match n.tag, n.content with
  | .timestamp, .mapping _ => throw (.scalar .momentOfMap)
  | tag, _ => scalarValue tag t

end Graph

end BundleManifest.Yaml
