/-
# BundleManifest.Text.Basic — text as a sequence of code points

File names are bytes, and not every byte sequence is well-formed UTF-8. The library therefore does
not work on `String`: a `Text` is a list of code points that may hold lone surrogates, and the
surrogates U+DC80 to U+DCFF stand for the bytes 0x80 to 0xFF that could not be decoded
(`BundleManifest.Text.Utf8`). Order, cutting and joining are those of lists of code points; in
particular a text sorts by code point, never by byte or by UTF-16 unit.
-/
import BundleManifest.Cut

namespace BundleManifest

/-- A code point, surrogates included. -/
abbrev CodePoint := Fin 0x110000

/-- A sequence of code points. -/
abbrev Text := List CodePoint

namespace CodePoint

/-- Every character is a code point. -/
def ofChar (c : Char) : CodePoint :=
  ⟨c.toNat, by
    have h := c.valid
    simp only [UInt32.isValidChar, Nat.isValidChar] at h
    simp only [Char.toNat]
    omega⟩

instance : Coe Char CodePoint := ⟨ofChar⟩

/-- The replacement character, which stands for what could not be decoded. -/
def replacement : CodePoint := 0xFFFD

/-- The code point with this number; numbers past the last one become the replacement character. -/
def ofNat (n : Nat) : CodePoint := if h : n < 0x110000 then ⟨n, h⟩ else replacement

theorem val_ofNat {n : Nat} (h : n < 0x110000) : (ofNat n).val = n := by simp [ofNat, h]

/-- The surrogates are the code points that no well-formed encoding has. -/
def isSurrogate (c : CodePoint) : Bool := 0xD800 ≤ c.val && c.val ≤ 0xDFFF

end CodePoint

namespace Text

/-- The text of a string. -/
def ofString (s : String) : Text := s.toList.map CodePoint.ofChar

instance : Coe String Text := ⟨ofString⟩

/-- The text of a natural number in base ten. -/
def ofNat (n : Nat) : Text := (Nat.toDigits 10 n).map CodePoint.ofChar

/-- The text of an integer in base ten. -/
def ofInt : Int → Text
  | .ofNat n => ofNat n
  | .negSucc n => CodePoint.ofChar '-' :: ofNat (n + 1)

/-- The texts one after the other, with a separator between each two. -/
def separated (separator : Text) (parts : List Text) : Text :=
  (parts.intersperse separator).flatten

/-- The segment that names the directory itself. -/
def dot : Text := [CodePoint.ofChar '.']

/-- The segment that names the parent directory. -/
def dotdot : Text := [CodePoint.ofChar '.', CodePoint.ofChar '.']

/-! ## Cutting and joining -/

/-- The pieces between the occurrences of a code point. -/
abbrev split (sep : CodePoint) (t : Text) : List Text := cut sep t

/-- The pieces with a code point between each two neighbours. -/
abbrev join (sep : CodePoint) (pieces : List Text) : Text := glue sep pieces

/-- The text with every `old` replaced by `new`. -/
def replace (old new : CodePoint) (t : Text) : Text := t.map fun c => if c = old then new else c

end Text

end BundleManifest
