/-
# BundleManifest.Text.Base64 — bytes written as letters

Four letters stand for three bytes. Whatever is not a letter of the alphabet is passed over. An
equals sign fills the place of a letter that is missing at the end: two letters need two of them,
three letters need one, and what comes after is not looked at.
-/
import BundleManifest.Text.Utf8

namespace BundleManifest.Base64

/-- The value of a letter. -/
def value? (c : CodePoint) : Option Nat :=
  let n := c.val
  if 0x41 ≤ n && n ≤ 0x5A then some (n - 0x41)
  else if 0x61 ≤ n && n ≤ 0x7A then some (n - 0x61 + 26)
  else if 0x30 ≤ n && n ≤ 0x39 then some (n - 0x30 + 52)
  else if c = '+' then some 62
  else if c = '/' then some 63
  else none

/-- What is known in the middle of a group of four letters: how many of them have been read, the
bits of the last one that belong to no byte yet, and the equals signs since. -/
structure Group where
  letters : Nat := 0
  bits : Nat := 0
  fillers : Nat := 0
  deriving DecidableEq, Repr

/-- The bytes of the letters that follow a part of a group; none if the last group is not
finished. -/
def decodeAfter (g : Group) : Text → Option Bytes
  | [] => if g.letters = 0 then some [] else none
  | c :: rest =>
    if c = '=' then
      if g.letters < 2 then decodeAfter g rest
      else if 3 ≤ g.letters + g.fillers then some []
      else decodeAfter { g with fillers := g.fillers + 1 } rest
    else match value? c with
      | none => decodeAfter g rest
      | some v =>
        match g.letters with
        | 0 => decodeAfter ⟨1, v, 0⟩ rest
        | 1 => (decodeAfter ⟨2, v % 16, 0⟩ rest).map (.ofNat (g.bits * 4 + v / 16) :: ·)
        | 2 => (decodeAfter ⟨3, v % 4, 0⟩ rest).map (.ofNat (g.bits * 16 + v / 4) :: ·)
        | _ => (decodeAfter {} rest).map (.ofNat (g.bits * 64 + v) :: ·)

/-- The bytes that a text stands for. It may hold nothing outside ASCII. -/
def decode? (t : Text) : Option Bytes :=
  if t.all fun c => c.val < 0x80 then decodeAfter {} t else none

end BundleManifest.Base64
