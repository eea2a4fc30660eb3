/-
# BundleManifest.Text.Numeral — integers written with digits

`readInteger` reads an integer in a base: blanks around it are ignored, one sign may come first,
digits may be separated by single low lines, and any decimal digit of Unicode 14.0 counts. A base
that is a power of two may be announced by its letter after a zero. In base ten, texts with more
than 4300 digits are refused.
-/
import BundleManifest.Text.Blank
import BundleManifest.Text.Digit

namespace BundleManifest

/-- The digit zero of each script; the nine following code points are its digits one to nine. -/
def zeroDigits : List Nat := [
    0x30, 0x660, 0x6F0, 0x7C0, 0x966, 0x9E6, 0xA66, 0xAE6, 0xB66, 0xBE6, 0xC66, 0xCE6, 0xD66,
    0xDE6, 0xE50, 0xED0, 0xF20, 0x1040, 0x1090, 0x17E0, 0x1810, 0x1946, 0x19D0, 0x1A80, 0x1A90,
    0x1B50, 0x1BB0, 0x1C40, 0x1C50, 0xA620, 0xA8D0, 0xA900, 0xA9D0, 0xA9F0, 0xAA50, 0xABF0,
    0xFF10, 0x104A0, 0x10D30, 0x11066, 0x110F0, 0x11136, 0x111D0, 0x112F0, 0x11450, 0x114D0,
    0x11650, 0x116C0, 0x11730, 0x118E0, 0x11950, 0x11C50, 0x11D50, 0x11DA0, 0x16A60, 0x16AC0,
    0x16B50, 0x1D7CE, 0x1D7D8, 0x1D7E2, 0x1D7EC, 0x1D7F6, 0x1E140, 0x1E2F0, 0x1E950, 0x1FBF0]

/-- The value of a decimal digit. -/
def CodePoint.digit? (c : CodePoint) : Option Nat :=
  (zeroDigits.find? fun least => least ≤ c.val && c.val ≤ least + 9).map (c.val - ·)

namespace Text

/-- The most decimal digits that are read or written. -/
def maxDigits : Nat := 4300

/-- The blanks of the basic alphabet. -/
def isPlainBlank (c : CodePoint) : Bool := c = ' ' || (0x09 ≤ c.val && c.val ≤ 0x0D)

/-- The text up to the first code point that is neither in the basic alphabet nor a blank nor a
decimal digit, with blanks and digits of all scripts written in the basic alphabet. A question mark
stands for what could not be written. -/
def plainPoints : Text → Text
  | [] => []
  | c :: rest =>
    if c.val < 0x7F then c :: plainPoints rest
    else if c.isBlank then CodePoint.ofChar ' ' :: plainPoints rest
    else match c.digit? with
      | some d => .ofNat (0x30 + d) :: plainPoints rest
      | none => [CodePoint.ofChar '?']

/-- A number in the basic alphabet. -/
def plainNumeral (t : Text) : Text := if t.all fun c => c.val < 0x80 then t else plainPoints t

/-- The sign of a number, and the text after it. -/
def signed : Text → Bool × Text
  | [] => (false, [])
  | c :: rest =>
    if c = '-' then (true, rest) else if c = '+' then (false, rest) else (false, c :: rest)

/-- The letter that announces a base after a zero. -/
def baseLetter? (base : Nat) : Option Char :=
  if base = 2 then some 'b' else if base = 8 then some 'o' else if base = 16 then some 'x' else none

/-- The text after a zero and the letter of the base, if it starts with them; one low line may
follow them. -/
def afterBase (base : Nat) (t : Text) : Text :=
  match baseLetter? base, t with
  | some letter, zero :: c :: rest =>
    if zero = '0' && (c = letter || c = letter.toUpper) then
      if rest.head? = some (CodePoint.ofChar '_') then rest.drop 1 else rest
    else t
  | _, _ => t

/-- Whether every low line stands between two digits. -/
def lowLinesSeparate (t : Text) : Bool :=
  t = [] || (split '_' t).all (· != [])

/-- Why a text is no integer. -/
inductive IntegerFault where
  | malformed
  | tooManyDigits (count : Nat)
  deriving DecidableEq, Repr

/-- The integer written as `t` in a base. -/
def readInteger (base : Nat) (t : Text) : Except IntegerFault Int :=
  let (negative, u) := signed ((plainNumeral t).dropWhile isPlainBlank)
  let u := afterBase base u
  let digits := u.takeWhile (CodePoint.isDigitOrLow base)
  let rest := (u.drop digits.length).dropWhile isPlainBlank
  let values := digits.filterMap (CodePoint.digitIn? base)
  if !lowLinesSeparate digits then .error .malformed
  else if (baseLetter? base).isNone && maxDigits < values.length then
    .error (.tooManyDigits values.length)
  else if values = [] || rest ≠ [] then .error .malformed
  else
    let n := ofDigits base values
    .ok (if negative then -Int.ofNat n else Int.ofNat n)

/-- The integer written as `t` in base ten. -/
def readInt? (t : Text) : Option Int := (readInteger 10 t).toOption

end Text

end BundleManifest
