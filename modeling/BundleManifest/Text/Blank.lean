/-
# BundleManifest.Text.Blank — white space and trimming

Which code points count as blank, and `trim`, which removes them at both ends of a text. The class
is that of the Unicode property White_Space together with the four information separators U+001C to
U+001F.
-/
import BundleManifest.Text.Basic

namespace BundleManifest

/-- White space, the information separators included. -/
def CodePoint.isBlank (c : CodePoint) : Bool :=
  let n := c.val
  (0x09 ≤ n && n ≤ 0x0D) || (0x1C ≤ n && n ≤ 0x20) || n == 0x85 || n == 0xA0 || n == 0x1680
    || (0x2000 ≤ n && n ≤ 0x200A) || n == 0x2028 || n == 0x2029 || n == 0x202F || n == 0x205F
    || n == 0x3000

namespace Text

/-- The text without the leading code points of a class. -/
def trimStart (blank : CodePoint → Bool) (t : Text) : Text := t.dropWhile blank

/-- The text without the trailing code points of a class. -/
def trimEnd (blank : CodePoint → Bool) (t : Text) : Text := (t.reverse.dropWhile blank).reverse

/-- The text without blanks at either end. -/
def trim (t : Text) : Text := trimEnd CodePoint.isBlank (trimStart CodePoint.isBlank t)

end Text

end BundleManifest
