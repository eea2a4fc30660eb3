/-
# BundleManifest.Yaml.Number — scalars that are numbers

Low lines in a number mean nothing. An integer starts with a sign and then, perhaps, with a mark of
its base; a real number may be infinite or no number at all. Parts between colons are digits in base
sixty.
-/
import BundleManifest.Config.Fault
import BundleManifest.Number.Numeral
import BundleManifest.Yaml.Tag

namespace BundleManifest.Yaml

/-- A text without its low lines. -/
def withoutLows (t : Text) : Text := t.filter (· ≠ '_')

/-! ## Integers -/

/-- The integer that a text denotes in a base. -/
def inBase (base : Nat) (t : Text) : Except ScalarFault Int :=
  (Text.readInteger base t).mapError fun
    | .malformed => .notInteger base t
    | .tooManyDigits count => .tooManyDigits count

/-- The integer that a text denotes after its sign. Its beginning tells the base. -/
def magnitude (t : Text) : Except ScalarFault Int :=
  if t = Text.ofString "0" then .ok 0
  else match Tag.after? "0b" t, Tag.after? "0x" t with
    | some digits, _ => inBase 2 digits
    | none, some digits => inBase 16 digits
    | none, none =>
      if t.head? = some (CodePoint.ofChar '0') then inBase 8 t
      else if t.contains ':' then do
        let parts ← (Text.split ':' t).mapM (inBase 10)
        return parts.foldl (fun n part => n * 60 + part) 0
      else inBase 10 t

/-- The integer that a scalar denotes. -/
def integer (t : Text) : Except ScalarFault Int :=
  match Text.signed (withoutLows t) with
  | (_, []) => .error .emptyNumber
  | (negative, u) => (magnitude u).map fun n => if negative then -n else n

/-! ## Real numbers -/

/-- The number that a text denotes. -/
def number (t : Text) : Except ScalarFault Binary64 :=
  match Binary64.ofText? t with
  | some x => .ok x
  | none => .error (.notReal t)

/-- A part of a number in base sixty, given how many parts come after it. -/
def sixtieths (part : Binary64) (after : Nat) : Except ScalarFault Binary64 :=
  match Binary64.ofNat? (Nat.pow 60 after) with
  | some power => .ok (part.mul power)
  | none => .error .tooLargeForReal

/-- The sum of parts in base sixty, the last part first. -/
def sumOfSixtieths (parts : List Binary64) : Except ScalarFault Binary64 := do
  let terms ← parts.zipIdx.mapM fun (part, after) => sixtieths part after
  return terms.foldl Binary64.add (.ofDecimal false 0 0)

/-- The real number that a text of small letters denotes after its sign. -/
def realMagnitude (negative : Bool) (t : Text) : Except ScalarFault Binary64 :=
  if t = Text.ofString ".inf" then .ok (.infinite negative)
  else if t = Text.ofString ".nan" then .ok .nan
  else do
    let x ←
      if t.contains ':' then do
        let parts ← (Text.split ':' t).mapM number
        sumOfSixtieths parts.reverse
      else number t
    return if negative then x.negate else x

/-- The real number that a scalar denotes. -/
def real (t : Text) : Except ScalarFault Binary64 :=
  match Text.lower (withoutLows t) with
  | [] => .error .emptyNumber
  | u =>
    let (negative, v) := Text.signed u
    realMagnitude negative v

/-- Whether a scalar is the word for no number at all. -/
def isNotNumberWord (t : Text) : Bool :=
  (Text.signed (Text.lower (withoutLows t))).2 = Text.ofString ".nan"

end BundleManifest.Yaml
