/-
# BundleManifest.Text.Quoted — texts in quotation marks

Messages show a text between quotation marks so that its ends and its unusual code points can be
seen. The mark is the apostrophe, unless the text holds an apostrophe and no double quote. Inside,
the mark and the backslash are escaped, and so is every code point that is not printable. Bytes are
shown the same way after the letter b; of them only printable ASCII is shown as it is.
-/
import BundleManifest.Text.Printable
import BundleManifest.Text.Utf8

namespace BundleManifest

namespace Text

/-- The hexadecimal digits of `n`, padded with zeros to `width`. -/
def hexadecimal (width n : Nat) : Text :=
  let digits := (Nat.toDigits 16 n).map CodePoint.ofChar
  List.replicate (width - digits.length) (CodePoint.ofChar '0') ++ digits

/-- A code point as it stands between quotation marks `mark`. -/
def quotePoint (mark c : CodePoint) : Text :=
  if c = mark || c = '\\' then ['\\', c]
  else if c = '\n' then "\\n"
  else if c = '\r' then "\\r"
  else if c = '\t' then "\\t"
  else if c.isPrintable then [c]
  else if c.val ≤ 0xFF then "\\x" ++ hexadecimal 2 c.val
  else if c.val ≤ 0xFFFF then "\\u" ++ hexadecimal 4 c.val
  else "\\U" ++ hexadecimal 8 c.val

/-- The mark that a text is quoted with. -/
def quoteMark (t : Text) : CodePoint :=
  if t.contains '\'' && !t.contains '"' then '"' else '\''

/-- A text between quotation marks. -/
def quoted (t : Text) : Text :=
  let mark := quoteMark t
  mark :: (t.flatMap (quotePoint mark) ++ [mark])

/-- A byte as it stands between quotation marks `mark`. -/
def quoteByte (mark : CodePoint) (b : UInt8) : Text :=
  if 0x80 ≤ b.toNat then "\\x" ++ hexadecimal 2 b.toNat else quotePoint mark (.ofNat b.toNat)

/-- Bytes between quotation marks. -/
def quotedBytes (b : Bytes) : Text :=
  let mark := quoteMark (b.map fun byte => .ofNat byte.toNat)
  CodePoint.ofChar 'b' :: mark :: (b.flatMap (quoteByte mark) ++ [mark])

end Text

end BundleManifest
