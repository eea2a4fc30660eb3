/-
# BundleManifest.Number.Numeral — numbers as they are written

The text of a number has digits, perhaps a point among them and perhaps an exponent, or is a word
for infinity or for no number at all. Blanks around it are ignored and one sign may come first;
digits of all scripts count. What is written is rounded once, to the nearest number.
-/
import BundleManifest.Number.Binary64
import BundleManifest.Text.LowerCase
import BundleManifest.Text.Numeral

namespace BundleManifest.Binary64

open CodePoint (isDigit)
open Text (digitsValue)

/-- The exponent that ends a number; there may be none. -/
def exponent? : Text → Option Int
  | [] => some 0
  | e :: rest =>
    let (down, power) := Text.signed rest
    if (e = 'e' || e = 'E') && power != [] && power.all isDigit then
      let n := Int.ofNat (digitsValue power)
      some (if down then -n else n)
    else none

/-- The number written with digits, perhaps a point and perhaps an exponent. -/
def ofDigits? (negative : Bool) (t : Text) : Option Binary64 :=
  let whole := t.takeWhile isDigit
  let rest := t.drop whole.length
  let pointed := rest.head? = some (CodePoint.ofChar '.')
  let fraction := if pointed then (rest.drop 1).takeWhile isDigit else []
  let rest := if pointed then rest.drop (fraction.length + 1) else rest
  let digits := whole ++ fraction
  if digits = [] then none
  else (exponent? rest).map fun e =>
    .ofDecimal negative (digitsValue digits) (e - fraction.length)

/-- The number that a text denotes. -/
def ofText? (t : Text) : Option Binary64 :=
  let u := Text.trimEnd Text.isPlainBlank ((Text.plainNumeral t).dropWhile Text.isPlainBlank)
  let (negative, v) := Text.signed u
  let word := Text.lower v
  if word = Text.ofString "inf" || word = Text.ofString "infinity" then some (.infinite negative)
  else if word = Text.ofString "nan" then some .nan
  else ofDigits? negative v

end BundleManifest.Binary64
