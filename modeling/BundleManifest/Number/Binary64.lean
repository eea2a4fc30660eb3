/-
# BundleManifest.Number.Binary64 — 64-bit floating point over exact integers

A finite number is a sign, a significand and a power of two, so that every operation below is exact
integer arithmetic followed by one rounding to the nearest number, ties going to the even
significand. Nothing here uses the machine's own floating point.
-/

namespace BundleManifest

/-- A binary64 number. A finite one is `±significand * 2 ^ exponent`, with the significand below
`2 ^ 53` and the exponent at least `-1074`. -/
inductive Binary64 where
  | finite (negative : Bool) (significand : Nat) (exponent : Int)
  | infinite (negative : Bool)
  | nan
  deriving DecidableEq, Repr

namespace Binary64

/-- A power of two. -/
def twoTo (n : Nat) : Nat := Nat.pow 2 n

/-- A power of ten. -/
def tenTo (n : Nat) : Nat := Nat.pow 10 n

/-- The least exponent. -/
def leastExponent : Int := -1074

/-- The greatest exponent. -/
def greatestExponent : Int := 971

/-- The number of binary digits of a significand. -/
def precision : Nat := 53

/-- The quotient rounded to the nearest integer, ties to the even one. -/
def roundQuotient (num den : Nat) : Nat :=
  let q := num / den
  let twice := 2 * (num % den)
  if den < twice || (twice == den && q % 2 == 1) then q + 1 else q

/-- The number nearest to `± num / den`. -/
def ofRatio (negative : Bool) (num den : Nat) : Binary64 :=
  if num = 0 then .finite negative 0 leastExponent
  else
    let estimate : Int := (num.log2 : Int) - den.log2 - (precision - 1 : Nat)
    let scaled (e : Int) : Nat × Nat := (num * twoTo (-e).toNat, den * twoTo e.toNat)
    let (n, d) := scaled estimate
    let binade := if n < d * twoTo (precision - 1) then estimate - 1 else estimate
    let exponent := max leastExponent binade
    let (n, d) := scaled exponent
    let q := roundQuotient n d
    let (q, exponent) :=
      if q = twoTo precision then (twoTo (precision - 1), exponent + 1) else (q, exponent)
    if greatestExponent < exponent then .infinite negative else .finite negative q exponent

/-- The number nearest to `± digits * 10 ^ exponent`. Powers of ten far outside the range are not
computed. -/
def ofDecimal (negative : Bool) (digits : Nat) (exponent : Int) : Binary64 :=
  let size : Int := (Nat.toDigits 10 digits).length
  if digits = 0 || size + exponent < -400 then .finite negative 0 leastExponent
  else if 400 < size + exponent then .infinite negative
  else ofRatio negative (digits * tenTo exponent.toNat) (tenTo (-exponent).toNat)

/-- The integer part of a finite number, with its sign. -/
def truncate? : Binary64 → Option Int
  | finite negative significand exponent =>
    let magnitude := significand * twoTo exponent.toNat / twoTo (-exponent).toNat
    some (if negative then -Int.ofNat magnitude else Int.ofNat magnitude)
  | infinite _ | nan => none

/-- The integer that a number equals, if it equals one. -/
def exactInt? (x : Binary64) : Option Int :=
  match x, truncate? x with
  | finite _ significand exponent, some n =>
    if n.natAbs * twoTo (-exponent).toNat = significand * twoTo exponent.toNat then some n else none
  | _, _ => none

/-- The number nearest to `multiple * 2 ^ exponent`. -/
def ofSigned (multiple exponent : Int) : Binary64 :=
  ofRatio (multiple < 0) (multiple.natAbs * twoTo exponent.toNat) (twoTo (-exponent).toNat)

/-- The number nearest to a natural number; none if that is beyond all numbers. -/
def ofNat? (n : Nat) : Option Binary64 :=
  match ofRatio false n 1 with
  | .infinite _ => none
  | x => some x

/-- The number nearest to the product. -/
def mul (x y : Binary64) : Binary64 :=
  match x, y with
  | .nan, _ | _, .nan => .nan
  | .infinite a, .infinite b => .infinite (a != b)
  | .infinite a, .finite b n _ | .finite b n _, .infinite a =>
    if n = 0 then .nan else .infinite (a != b)
  | .finite a m e, .finite b n f =>
    ofRatio (a != b) (m * n * twoTo (e + f).toNat) (twoTo (-(e + f)).toNat)

/-- The number nearest to the sum. -/
def add (x y : Binary64) : Binary64 :=
  match x, y with
  | .nan, _ | _, .nan => .nan
  | .infinite a, .infinite b => if a = b then .infinite a else .nan
  | .infinite a, _ | _, .infinite a => .infinite a
  | .finite a m e, .finite b n f =>
    let least := min e f
    let part (negative : Bool) (significand : Nat) (exponent : Int) : Int :=
      let magnitude := Int.ofNat (significand * twoTo (exponent - least).toNat)
      if negative then -magnitude else magnitude
    let total := part a m e + part b n f
    if total = 0 then .finite (a && b) 0 leastExponent else ofSigned total least

/-- The number with the opposite sign. -/
def negate : Binary64 → Binary64
  | finite negative significand exponent => finite (!negative) significand exponent
  | infinite negative => infinite (!negative)
  | nan => nan

end Binary64

end BundleManifest
