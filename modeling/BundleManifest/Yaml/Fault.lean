/-
# BundleManifest.Yaml.Fault — why a document has no value

A document can be malformed, or a scalar in it can denote no value. The two are told apart because a
malformed document counts as empty where the other one is reported.
-/
import BundleManifest.Config.Fault

namespace BundleManifest.Yaml

/-- Why a document has no value. -/
inductive Fault where
  /-- The document is not well-formed, or describes something that is no value. -/
  | malformed
  | scalar (fault : ScalarFault)
  deriving DecidableEq, Repr

/-- The content of an option that may not be empty in a well-formed document. -/
def Fault.required {α : Type} : Option α → Except Fault α
  | some a => .ok a
  | none => .error .malformed

@[simp] theorem Fault.required_some {α : Type} (a : α) : required (some a) = .ok a := rfl

@[simp] theorem Fault.required_none {α : Type} :
    required (none : Option α) = .error .malformed := rfl

end BundleManifest.Yaml
