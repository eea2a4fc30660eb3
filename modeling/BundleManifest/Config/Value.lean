/-
# BundleManifest.Config.Value — the values that a configuration can hold

Configuration comes from a data file, from the environment and from the command line, and a setting
may hold any value of the data format until it is checked. `Value.shown` is the notation that
messages use for a value. A list or map may hold itself; where it does, the notation says so and
ends.
-/
import BundleManifest.Config.Moment
import BundleManifest.Number.Shortest
import BundleManifest.Text.Numeral
import BundleManifest.Text.Quoted

namespace BundleManifest

/-- What holds other values. -/
inductive Container where
  | list
  | map
  deriving DecidableEq, Repr

/-- A value of the data format. A map keeps its entries in order. -/
inductive Value where
  | null
  | bool (b : Bool)
  | int (n : Int)
  | real (x : Binary64)
  | text (t : Text)
  | bytes (b : Bytes)
  | date (d : Date)
  | moment (m : Moment)
  | list (items : List Value)
  | map (entries : List (Value × Value))
  | set (items : List Value)
  /-- A key and its value, where keys may come more than once. -/
  | pair (key value : Value)
  /-- A list or map that is already open around this place. -/
  | enclosing (container : Container)
  deriving Inhabited, Repr

namespace Value

mutual

/-- A value in the notation of messages. -/
def shown : Value → Text
  | null => "None"
  | bool b => if b then "True" else "False"
  | int n => Text.ofInt n
  | real x => x.text
  | text t => Text.quoted t
  | bytes b => Text.quotedBytes b
  | date d => d.shown
  | moment m => m.shown
  | list items => "[" ++ shownItems items ++ "]"
  | map entries => "\x7b" ++ shownEntries entries ++ "\x7d"
  | set [] => "set()"
  | set (item :: items) => "\x7b" ++ shownItems (item :: items) ++ "\x7d"
  | pair key value => "(" ++ shown key ++ ", " ++ shown value ++ ")"
  | enclosing .list => "[...]"
  | enclosing .map => "\x7b...\x7d"

/-- Values separated by commas. -/
def shownItems : List Value → Text
  | [] => []
  | [item] => shown item
  | item :: next :: items => shown item ++ ", " ++ shownItems (next :: items)

/-- Keys and values separated by commas. -/
def shownEntries : List (Value × Value) → Text
  | [] => []
  | [(key, value)] => shown key ++ ": " ++ shown value
  | (key, value) :: next :: entries =>
    shown key ++ ": " ++ shown value ++ ", " ++ shownEntries (next :: entries)

end

/-- Whether an integer has no more digits than are written. -/
def isShowableInt (n : Int) : Bool := n.natAbs < Binary64.tenTo Text.maxDigits

mutual

/-- Whether all integers in a value can be written. -/
def isShowable : Value → Bool
  | int n => isShowableInt n
  | list items | set items => areShowable items
  | map entries => areEntriesShowable entries
  | pair key value => isShowable key && isShowable value
  | _ => true

/-- The same for all items of a list. -/
def areShowable : List Value → Bool
  | [] => true
  | item :: items => isShowable item && areShowable items

/-- The same for all keys and values of a map. -/
def areEntriesShowable : List (Value × Value) → Bool
  | [] => true
  | (key, value) :: entries => isShowable key && isShowable value && areEntriesShowable entries

end

/-- The integer that a number or truth value equals. -/
def exactInt? : Value → Option Int
  | bool b => some (if b then 1 else 0)
  | int n => some n
  | real x => x.exactInt?
  | _ => none

/-- Whether two values are the same key of a map. Numbers and truth values are compared by value,
whatever their form. What holds other values is no key. -/
def sameKey (a b : Value) : Bool :=
  match a.exactInt?, b.exactInt? with
  | some m, some n => m == n
  | none, none =>
    match a, b with
    | null, null => true
    | real x, real y => x == y
    | text s, text t => s == t
    | bytes b, bytes c => b == c
    | date d, date e => d == e
    | moment m, moment n => m.isSame n
    | _, _ => false
  | _, _ => false

end Value

/-- Settings by name, as far as a source gives them. -/
abbrev Settings := List (Text × Value)

namespace Settings

/-- The value under a name, null included. -/
def get? (settings : Settings) (name : Text) : Option Value := settings.lookup name

/-- The value that a source supplies under a name: one that is present and not null. -/
def supplied? (settings : Settings) (name : Text) : Option Value :=
  match settings.get? name with
  | none | some .null => none
  | some value => some value

end Settings

end BundleManifest
