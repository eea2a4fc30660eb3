/-
# BundleManifest.Text.Utf8 — texts and bytes

The encoding is UTF-8. Two readings of arbitrary bytes are total:

* `decode` keeps every byte that belongs to no well-formed sequence as an escaped byte, the
  surrogate U+DC00 plus the byte, so that nothing is lost;
* `decodeLossy` writes one replacement character for every maximal ill-formed piece.

`decodeStrict` refuses ill-formed bytes and says where and why. `encode` writes escaped bytes back
as the bytes they stand for and refuses every other surrogate.
-/
import BundleManifest.Text.Basic

namespace BundleManifest

/-- A sequence of bytes. -/
abbrev Bytes := List UInt8

namespace Utf8

/-! ## Reading one scalar value -/

/-- Why a sequence of bytes is ill-formed. -/
inductive Fault where
  /-- The byte starts no sequence. -/
  | start
  /-- The sequence is interrupted by a byte that cannot continue it. -/
  | continuation
  /-- The bytes end inside the sequence. -/
  | ended
  deriving DecidableEq, Repr

/-- Bytes 0x80 to 0xBF continue a sequence. -/
def isTail (b : UInt8) : Bool := 0x80 ≤ b.toNat && b.toNat ≤ 0xBF

/-- The second byte of a sequence, whose range depends on the first: overlong forms, surrogates and
numbers past the last code point are excluded here. -/
def isSecond (first second : UInt8) : Bool :=
  let low := if first.toNat = 0xE0 then 0xA0 else if first.toNat = 0xF0 then 0x90 else 0x80
  let high := if first.toNat = 0xED then 0x9F else if first.toNat = 0xF4 then 0x8F else 0xBF
  low ≤ second.toNat && second.toNat ≤ high

/-- The six bits that a continuing byte carries. -/
def tailBits (b : UInt8) : Nat := b.toNat - 0x80

/-- The scalar value at the start of `first :: rest` and the number of bytes of `rest` it takes, or
the fault and the length of the maximal ill-formed piece. -/
def scalarAt (first : UInt8) (rest : Bytes) : Except (Fault × Nat) (CodePoint × Nat) :=
  let b := first.toNat
  if b < 0x80 then .ok (.ofNat b, 0)
  else if b < 0xC2 then .error (.start, 1)
  else if b < 0xE0 then
    match rest with
    | [] => .error (.ended, 1)
    | x :: _ =>
      if isTail x then .ok (.ofNat ((b - 0xC0) * 0x40 + tailBits x), 1)
      else .error (.continuation, 1)
  else if b < 0xF0 then
    match rest with
    | [] => .error (.ended, 1)
    | [x] => if isSecond first x then .error (.ended, 2) else .error (.continuation, 1)
    | x :: y :: _ =>
      if !isSecond first x then .error (.continuation, 1)
      else if !isTail y then .error (.continuation, 2)
      else .ok (.ofNat ((b - 0xE0) * 0x1000 + tailBits x * 0x40 + tailBits y), 2)
  else if b < 0xF5 then
    match rest with
    | [] => .error (.ended, 1)
    | [x] => if isSecond first x then .error (.ended, 2) else .error (.continuation, 1)
    | [x, y] =>
      if !isSecond first x then .error (.continuation, 1)
      else if isTail y then .error (.ended, 3) else .error (.continuation, 2)
    | x :: y :: z :: _ =>
      if !isSecond first x then .error (.continuation, 1)
      else if !isTail y then .error (.continuation, 2)
      else if !isTail z then .error (.continuation, 3)
      else .ok
        (.ofNat ((b - 0xF0) * 0x40000 + tailBits x * 0x1000 + tailBits y * 0x40 + tailBits z), 3)
  else .error (.start, 1)

/-! ## Decoding -/

/-- The surrogate that stands for a byte which could not be decoded. -/
def escaped (b : UInt8) : CodePoint := .ofNat (0xDC00 + b.toNat)

/-- Whether a code point stands for a byte of 0x80 or more. -/
def isEscaped (c : CodePoint) : Bool := 0xDC80 ≤ c.val && c.val ≤ 0xDCFF

/-- The text of any bytes: what is ill-formed is kept byte by byte as escaped bytes. -/
def decode : Bytes → Text
  | [] => []
  | b :: rest =>
    match scalarAt b rest with
    | .ok (c, taken) => c :: decode (rest.drop taken)
    | .error _ => escaped b :: decode rest
termination_by bytes => bytes.length
decreasing_by all_goals simp only [List.length_drop, List.length_cons]; omega

/-- The text of any bytes: each maximal ill-formed piece becomes a replacement character. -/
def decodeLossy : Bytes → Text
  | [] => []
  | b :: rest =>
    match scalarAt b rest with
    | .ok (c, taken) => c :: decodeLossy (rest.drop taken)
    | .error (_, length) => CodePoint.replacement :: decodeLossy (rest.drop (length - 1))
termination_by bytes => bytes.length
decreasing_by all_goals simp only [List.length_drop, List.length_cons]; omega

/-- An ill-formed piece: the byte it starts with, its offset, its length and what is wrong. -/
structure IllFormed where
  first : UInt8
  offset : Nat
  length : Nat
  fault : Fault
  deriving DecidableEq, Repr

/-- The text of well-formed bytes that start at `offset`, or the first ill-formed piece. -/
def decodeStrictFrom (offset : Nat) : Bytes → Except IllFormed Text
  | [] => .ok []
  | b :: rest =>
    match scalarAt b rest with
    | .ok (c, taken) =>
      (decodeStrictFrom (offset + taken + 1) (rest.drop taken)).map (c :: ·)
    | .error (fault, length) => .error ⟨b, offset, length, fault⟩
termination_by bytes => bytes.length
decreasing_by all_goals simp only [List.length_drop, List.length_cons]; omega

/-- The text of well-formed bytes, or the first ill-formed piece. -/
def decodeStrict (bytes : Bytes) : Except IllFormed Text := decodeStrictFrom 0 bytes

/-! ## The byte order mark -/

/-- The bytes of the byte order mark. -/
def mark : Bytes := [0xEF, 0xBB, 0xBF]

/-- The text of a file that may start with a byte order mark, read lossily. Nothing but the
beginning of a mark is taken for a mark that is not complete yet, and holds no text. -/
def decodeMarked (bytes : Bytes) : Text :=
  if bytes.length < mark.length && bytes.isPrefixOf mark then []
  else if mark.isPrefixOf bytes then decodeLossy (bytes.drop mark.length)
  else decodeLossy bytes

/-! ## Encoding -/

/-- The bytes of one scalar value. -/
def encodeScalar (c : CodePoint) : Bytes :=
  let n := c.val
  if n < 0x80 then [.ofNat n]
  else if n < 0x800 then [.ofNat (0xC0 + n / 0x40), .ofNat (0x80 + n % 0x40)]
  else if n < 0x10000 then
    [.ofNat (0xE0 + n / 0x1000), .ofNat (0x80 + n / 0x40 % 0x40), .ofNat (0x80 + n % 0x40)]
  else
    [.ofNat (0xF0 + n / 0x40000), .ofNat (0x80 + n / 0x1000 % 0x40),
      .ofNat (0x80 + n / 0x40 % 0x40), .ofNat (0x80 + n % 0x40)]

/-- The bytes of one code point, if it has any: a scalar value or an escaped byte. -/
def encodePoint (c : CodePoint) : Option Bytes :=
  if isEscaped c then some [.ofNat (c.val - 0xDC00)]
  else if c.isSurrogate then none
  else some (encodeScalar c)

/-- Surrogates that cannot be encoded: the first of them, its position, and how many code points
from there on are surrogates. -/
structure Unencodable where
  first : CodePoint
  position : Nat
  length : Nat
  deriving DecidableEq, Repr

/-- The bytes of a text that starts at `position`, or the first surrogates that have none. -/
def encodeFrom (position : Nat) : Text → Except Unencodable Bytes
  | [] => .ok []
  | c :: rest =>
    match encodePoint c with
    | some bytes => (encodeFrom (position + 1) rest).map (bytes ++ ·)
    | none => .error ⟨c, position, 1 + (rest.takeWhile CodePoint.isSurrogate).length⟩

/-- The bytes of a text, or the first surrogates that have none. -/
def encode (t : Text) : Except Unencodable Bytes := encodeFrom 0 t

end Utf8

end BundleManifest
