/-
# BundleManifest.CommandLine.Screen — lines on an output stream

Lines are written without the control sequences of a terminal: an escape, an opening bracket,
parameters, intermediate characters and a final one. On the error stream a surrogate is written as
an escape sequence, because it stands for no character.
-/
import BundleManifest.Text.Quoted

namespace BundleManifest.CommandLine

/-- The code point that starts a control sequence. -/
def escapePoint : CodePoint := .ofNat 0x1B

/-- Whether a code point may be a parameter of a control sequence. -/
def isParameter (c : CodePoint) : Bool := 0x30 ≤ c.val && c.val ≤ 0x3F

/-- Whether a code point may stand between the parameters of a control sequence and its end. -/
def isIntermediate (c : CodePoint) : Bool := 0x20 ≤ c.val && c.val ≤ 0x2F

/-- Whether a code point ends a control sequence. -/
def isFinal (c : CodePoint) : Bool := 0x40 ≤ c.val && c.val ≤ 0x7E

/-- The length of the rest of a control sequence after its escape; none if it is not one. -/
def sequenceRest? (t : Text) : Option Nat :=
  match t with
  | c :: rest =>
    let parameters := (rest.takeWhile isParameter).length
    let length := parameters + ((rest.drop parameters).takeWhile isIntermediate).length
    if c = '[' && (rest[length]?).any isFinal then some (length + 2) else none
  | [] => none

/-- A text without control sequences. -/
def plain : Text → Text
  | [] => []
  | c :: rest =>
    match if c = escapePoint then sequenceRest? rest else none with
    | some length => plain (rest.drop length)
    | none => c :: plain rest
termination_by t => t.length
decreasing_by all_goals simp only [List.length_drop, List.length_cons]; omega

/-- A code point on the error stream. -/
def errorPoint (c : CodePoint) : Text :=
  if c.isSurrogate then "\\u" ++ Text.hexadecimal 4 c.val else [c]

/-- A text as it is written to the error stream. -/
def errorText (t : Text) : Text := (plain t).flatMap errorPoint

/-- A line as it is written. -/
def line (t : Text) : Text := plain t ++ [CodePoint.ofChar '\n']

/-- Lines as they are written. -/
def screenLines (ts : List Text) : Text := ts.flatMap line

end BundleManifest.CommandLine
