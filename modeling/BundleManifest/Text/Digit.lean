/-
# BundleManifest.Text.Digit — digits of the basic alphabet

Decimal digits come first, and letters, large or small, are the digits from ten on. A digit of a
base is below the base (`lt_of_digitIn?`), and `Text.ofDigits` gives the number that digits denote.
-/
import BundleManifest.Text.Basic

namespace BundleManifest

namespace CodePoint

/-- Whether a code point is a decimal digit of the basic alphabet. -/
def isDigit (c : CodePoint) : Bool := 0x30 ≤ c.val && c.val ≤ 0x39

/-- The value of a letter or digit of the basic alphabet as a digit. -/
def letterDigit? (c : CodePoint) : Option Nat :=
  if c.isDigit then some (c.val - 0x30)
  else if 0x41 ≤ c.val && c.val ≤ 0x5A then some (c.val - 0x41 + 10)
  else if 0x61 ≤ c.val && c.val ≤ 0x7A then some (c.val - 0x61 + 10)
  else none

/-- The value of a digit of a base. -/
def digitIn? (base : Nat) (c : CodePoint) : Option Nat := c.letterDigit?.filter (· < base)

theorem lt_of_digitIn? {base n : Nat} {c : CodePoint} (h : c.digitIn? base = some n) :
    n < base := by
  simpa using (Option.filter_eq_some_iff.1 h).2

/-- Whether a code point is a digit of a base, or the low line that may stand between digits. -/
def isDigitOrLow (base : Nat) (c : CodePoint) : Bool := (c.digitIn? base).isSome || c = '_'

/-- Whether a code point is a letter or digit of the basic alphabet. -/
def isLetterOrDigit (c : CodePoint) : Bool := c.letterDigit?.isSome

end CodePoint

namespace Text

/-- The number that digits denote in a base. -/
def ofDigits (base : Nat) (digits : List Nat) : Nat := digits.foldl (fun n d => n * base + d) 0

theorem ofDigits_append_singleton (base : Nat) (digits : List Nat) (d : Nat) :
    ofDigits base (digits ++ [d]) = ofDigits base digits * base + d := by
  simp [ofDigits]

/-- The number that decimal digits of the basic alphabet denote. -/
def digitsValue (t : Text) : Nat := ofDigits 10 (t.map fun c => c.val - 0x30)

end Text

end BundleManifest
