/-
# BundleManifest.CommandLine.JsonLine — a line of the log as JSON

A line of the log is one JSON object on a line of its own, written in ASCII: a code point outside is
escaped, and one above U+FFFF as two surrogates. Numbers keep their own notation, and what JSON has
no word for is written as a text.
-/
import BundleManifest.Config.Value

namespace BundleManifest.CommandLine

/-- A 16-bit unit as an escape sequence. -/
def unitEscape (n : Nat) : Text := "\\u" ++ Text.hexadecimal 4 n

/-- A code point inside a JSON string. -/
def jsonPoint (c : CodePoint) : Text :=
  let n := c.val
  if c = '"' || c = '\\' then ['\\', c]
  else if c = '\n' then "\\n"
  else if c = '\r' then "\\r"
  else if c = '\t' then "\\t"
  else if n = 0x08 then "\\b"
  else if n = 0x0C then "\\f"
  else if 0x20 ≤ n && n < 0x7F then [c]
  else if n < 0x10000 then unitEscape n
  else
    let rest := n - 0x10000
    unitEscape (0xD800 + rest / 0x400) ++ unitEscape (0xDC00 + rest % 0x400)

/-- A JSON string. -/
def jsonText (t : Text) : Text := "\"" ++ t.flatMap jsonPoint ++ "\""

/-- A value of a field as JSON. -/
def jsonValue : Value → Text
  | .null => "null"
  | .bool b => if b then "true" else "false"
  | .int n => Text.ofInt n
  | .text t => jsonText t
  | value => jsonText value.shown

/-- A line of the log. -/
def jsonLine (fields : Settings) : Text :=
  let members := fields.map fun (name, value) => jsonText name ++ ": " ++ jsonValue value
  "\x7b" ++ Text.separated ", " members ++ "\x7d\n"

end BundleManifest.CommandLine
