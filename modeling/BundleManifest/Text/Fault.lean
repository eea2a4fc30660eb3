/-
# BundleManifest.Text.Fault — what is said about texts and bytes that do not convert

The two directions of the encoding can fail: bytes may be ill-formed, and a text may hold surrogates
that stand for no byte. Each failure names the first offender, where it is and what is wrong.
-/
import BundleManifest.Text.Quoted
import BundleManifest.Text.Utf8

namespace BundleManifest.Utf8

/-- The name of the encoding in messages. -/
def codec : Text := "'utf-8' codec"

/-- The words for a span of positions, given as its start and length: one position, or the first and
the last of several. -/
def span (start length : Nat) : Text :=
  if length = 1 then Text.ofNat start
  else Text.ofNat start ++ "-" ++ Text.ofNat (start + length - 1)

/-- What is wrong with bytes. -/
def Fault.reason : Fault → Text
  | start => "invalid start byte"
  | continuation => "invalid continuation byte"
  | ended => "unexpected end of data"

/-- What is said about an ill-formed piece. -/
def IllFormed.message (i : IllFormed) : Text :=
  codec ++ " can't decode "
    ++ (if i.length = 1 then "byte 0x" ++ Text.hexadecimal 2 i.first.toNat
        else Text.ofString "bytes")
    ++ " in position " ++ span i.offset i.length ++ ": " ++ i.fault.reason

/-- What is said about surrogates that cannot be encoded. -/
def Unencodable.message (u : Unencodable) : Text :=
  codec ++ " can't encode "
    ++ (if u.length = 1 then "character '\\u" ++ Text.hexadecimal 4 u.first.val ++ "'"
        else Text.ofString "characters")
    ++ " in position " ++ span u.position u.length ++ ": surrogates not allowed"

end BundleManifest.Utf8
