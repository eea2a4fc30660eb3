/-
# BundleManifest.Number.Shortest — the fewest digits that read back

The decimal text of a binary64 number has the fewest significant digits among the decimals that
round to it, and among those the decimal nearest to the number. `Binary64.shortest` finds the
digits; a `DecimalLayout` says how they are written.
-/
import BundleManifest.Number.Binary64
import BundleManifest.Text.Basic

namespace BundleManifest

namespace Binary64

/-- A positive number and the ends of the interval of reals that round to it, as multiples of
`1 / unit`. The ends belong to the interval when the significand is even. -/
structure Neighbourhood where
  value : Nat
  low : Nat
  high : Nat
  unit : Nat
  closed : Bool

/-- The neighbourhood of `significand * 2 ^ exponent`. Below a power of two the next number is half
as far away as above it. -/
def neighbourhood (significand : Nat) (exponent : Int) : Neighbourhood :=
  let up := twoTo exponent.toNat
  let below := if significand = twoTo (precision - 1) && leastExponent < exponent then 1 else 2
  { value := 4 * significand * up
    low := (4 * significand - below) * up
    high := (4 * significand + 2) * up
    unit := 4 * twoTo (-exponent).toNat
    closed := significand % 2 == 0 }

/-- Whether `multiple / unit` rounds to the number. -/
def Neighbourhood.holds (n : Neighbourhood) (multiple : Nat) : Bool :=
  if n.closed then n.low ≤ multiple && multiple ≤ n.high else n.low < multiple && multiple < n.high

/-- The neighbourhood in multiples of `10 ^ place / unit`, as far as this makes them larger. -/
def Neighbourhood.inTens (n : Neighbourhood) (place : Int) : Neighbourhood :=
  let down := tenTo (-place).toNat
  { n with value := n.value * down, low := n.low * down, high := n.high * down }

/-- The decimal exponent of the leading digit of `num / den`. -/
def leadingPlace (num den : Nat) : Int :=
  if den ≤ num then ((Nat.toDigits 10 (num / den)).length : Int) - 1
  else
    match (List.range 400).find? fun j => den ≤ num * tenTo (j + 1) with
    | some j => -((j : Int) + 1)
    | none => 0

/-- The point of the grid `10 ^ place` that rounds to the number, if there is one; of two the
nearer. -/
def gridPoint? (n : Neighbourhood) (place : Int) : Option Nat :=
  let n := n.inTens place
  let step := n.unit * tenTo place.toNat
  let down := n.value / step
  let up := down + 1
  match n.holds (down * step), n.holds (up * step) with
  | true, true =>
    let before := n.value - down * step
    let after := up * step - n.value
    some (if before < after || (before == after && down % 2 == 0) then down else up)
  | true, false => some down
  | false, true => some up
  | false, false => none

/-- Removes trailing zeros from digits, raising the place of the last digit. -/
def dropZeros : Nat → Nat → Int → Nat × Int
  | 0, digits, place => (digits, place)
  | fuel + 1, digits, place =>
    if digits ≠ 0 && digits % 10 = 0 then dropZeros fuel (digits / 10) (place + 1)
    else (digits, place)

/-- The shortest digits of a positive number and the decimal exponent of the last of them. -/
def shortest (significand : Nat) (exponent : Int) : Nat × Int :=
  let n := neighbourhood significand exponent
  let lead := leadingPlace n.value n.unit
  let found := (List.range 17).findSome? fun (count : Nat) =>
    let place := lead - (count : Int)
    (gridPoint? n place).map fun digits => (digits, place)
  match found with
  | some (digits, place) => dropZeros 20 digits place
  | none => (0, 0)

end Binary64

/-- How digits are written: positionally while the decimal point falls at a position from `least` to
`greatest`, counted from the first digit, and with an exponent of at least `exponentWidth` digits
otherwise. -/
structure DecimalLayout where
  least : Int
  greatest : Int
  exponentWidth : Nat

/-- Numbers from 0.0001 to below 10 ^ 16 are written positionally, and exponents have two digits. -/
def DecimalLayout.standard : DecimalLayout := ⟨-3, 16, 2⟩

namespace DecimalLayout

/-- Digits with zeros in front, up to a width. -/
def padded (width : Nat) (digits : Text) : Text :=
  List.replicate (width - digits.length) (CodePoint.ofChar '0') ++ digits

/-- The text of `digits * 10 ^ place`. A positional text always has a fractional part. -/
def write (layout : DecimalLayout) (digits : Nat) (place : Int) : Text :=
  let shown := Text.ofNat digits
  let point : Int := shown.length + place
  if layout.least ≤ point && point ≤ layout.greatest then
    if point ≤ 0 then "0." ++ List.replicate (-point).toNat (CodePoint.ofChar '0') ++ shown
    else
      let whole := shown.take point.toNat
      let fraction := shown.drop point.toNat
      whole ++ List.replicate (point.toNat - whole.length) (CodePoint.ofChar '0') ++ "."
        ++ (if fraction = [] then Text.ofString "0" else fraction)
  else
    let exponent := point - 1
    let fraction := shown.drop 1
    shown.take 1 ++ (if fraction = [] then [] else CodePoint.ofChar '.' :: fraction)
      ++ Text.ofString (if exponent < 0 then "e-" else "e+")
      ++ padded layout.exponentWidth (Text.ofNat exponent.natAbs)

end DecimalLayout

/-- The decimal text of a number. -/
def Binary64.text : Binary64 → Text
  | .nan => "nan"
  | .infinite negative => if negative then "-inf" else "inf"
  | .finite negative significand exponent =>
    let magnitude : Text :=
      if significand = 0 then "0.0"
      else
        let (digits, place) := Binary64.shortest significand exponent
        DecimalLayout.standard.write digits place
    if negative then "-" ++ magnitude else magnitude

end BundleManifest
