/-
# BundleManifest.Yaml.Tag — what a node is

Every node has a tag that says what it is. `Tag.ofName` reads a tag that is given, and `Tag.ofPlain`
finds the tag that follows from how a plain scalar is written: as a truth value, a number, a day or
moment, one of the words for nothing, or one of the marks with a meaning of their own.
-/
import BundleManifest.Yaml.Cursor

namespace BundleManifest.Yaml

/-- What a node is. -/
inductive Tag where
  | null
  | bool
  | int
  | float
  | binary
  | timestamp
  | str
  | seq
  | map
  | set
  /-- A list of maps with one entry each, whose keys are meant to differ. -/
  | omap
  /-- A list of maps with one entry each. -/
  | pairs
  /-- The key whose value is a map to take entries from. -/
  | merge
  /-- The key that is a plain equals sign. -/
  | value
  | other (name : Text)
  deriving DecidableEq, Repr

namespace Tag

open CodePoint (isDigit isDigitOrLow)

/-- The beginning of the tags of the format itself. -/
def standard : Text := "tag:yaml.org,2002:"

/-- The names of the tags of the format. -/
def names : List (String × Tag) := [
  ("null", null), ("bool", bool), ("int", int), ("float", float), ("binary", binary),
  ("timestamp", timestamp), ("str", str), ("seq", seq), ("map", map), ("set", set),
  ("omap", omap), ("pairs", pairs), ("merge", merge), ("value", value)]

/-- The tag with a full name. -/
def ofName (name : Text) : Tag :=
  match names.find? fun e => standard ++ Text.ofString e.1 = name with
  | some e => e.2
  | none => other name

/-! ## The tag of a plain scalar -/

/-- Whether a text is one of the words of a list. -/
def isWord (words : List String) (t : Text) : Bool := words.any fun w => Text.ofString w = t

/-- Whether a text is not empty and all of one class. -/
def isAll (accepts : CodePoint → Bool) (t : Text) : Bool := t != [] && t.all accepts

/-- A text without its sign. -/
def unsigned (t : Text) : Text :=
  match t with
  | c :: rest => if c = '-' || c = '+' then rest else t
  | [] => []

/-- Whether digits and low lines start with a digit. -/
def isDigits (t : Text) : Bool := t.all (isDigitOrLow 10) && t.head?.any isDigit

/-- Whether a text is a part of a number in base sixty: one or two digits, below sixty. -/
def isSixty (t : Text) : Bool :=
  match t with
  | [a] => isDigit a
  | [a, b] => 0x30 ≤ a.val && a.val ≤ 0x35 && isDigit b
  | _ => false

/-- The rest of a text after a beginning. -/
def after? (beginning : String) (t : Text) : Option Text :=
  let beginning := Text.ofString beginning
  if beginning.isPrefixOf t then some (t.drop beginning.length) else none

/-- Whether a text is written as an integer: in base two, eight, ten, sixteen or sixty. -/
def isInt (t : Text) : Bool :=
  let u := unsigned t
  let binary := (after? "0b" u).any (isAll (isDigitOrLow 2))
  let hexadecimal := (after? "0x" u).any (isAll (isDigitOrLow 16))
  let octal := (after? "0" u).any (isAll (isDigitOrLow 8))
  let decimal := isDigits u && (u.head? != some (CodePoint.ofChar '0') || u.length == 1)
  let sixties :=
    match Text.split ':' u with
    | whole :: part :: parts =>
      isDigits whole && whole.head? != some (CodePoint.ofChar '0') && (part :: parts).all isSixty
    | _ => false
  binary || hexadecimal || octal || decimal || sixties

/-- Whether a text is empty or an exponent: a letter, a sign and digits. -/
def isExponent (t : Text) : Bool :=
  match t with
  | [] => true
  | e :: s :: digits => (e = 'e' || e = 'E') && (s = '-' || s = '+') && isAll isDigit digits
  | _ => false

/-- Whether a text is written as a real number. It has a point. -/
def isFloat (t : Text) : Bool :=
  let u := unsigned t
  let whole := u.takeWhile (isDigitOrLow 10)
  let rest := u.drop whole.length
  let pointed :=
    match rest with
    | point :: fraction =>
      point = '.' && isExponent (fraction.dropWhile (isDigitOrLow 10))
        && (if whole = [] then t = u && fraction.head?.any isDigit else isDigits whole)
    | [] => false
  let sixties :=
    match Text.split ':' u with
    | whole :: part :: parts =>
      let last := (part :: parts).getLastD []
      let digits := last.takeWhile isDigit
      isDigits whole && (part :: parts).dropLast.all isSixty && isSixty digits
        && (match last.drop digits.length with
          | point :: fraction => point = '.' && fraction.all (isDigitOrLow 10)
          | [] => false)
    | _ => false
  let infinite := isWord [".inf", ".Inf", ".INF"] u
  let notNumber := isWord [".nan", ".NaN", ".NAN"] t
  pointed || sixties || infinite || notNumber

/-- Whether a text has one or two digits. -/
def isShort (t : Text) : Bool := isAll isDigit t && t.length ≤ 2

/-- Whether a text has exactly two digits. -/
def isPair (t : Text) : Bool := t.all isDigit && t.length = 2

/-- Whether a text is empty or an offset from universal time, blanks before it passed over. -/
def isOffset (t : Text) : Bool :=
  match t.dropWhile isSpaceOrTab with
  | [] => t = []
  | c :: rest =>
    if c = 'Z' then rest = []
    else (c = '-' || c = '+')
      && (match Text.split ':' rest with
        | [hour] => isShort hour
        | [hour, minute] => isShort hour && isPair minute
        | _ => false)

/-- Whether a text is the time of a day: hour, minute, second, fraction and offset. -/
def isTime (t : Text) : Bool :=
  match Text.split ':' t with
  | hour :: minute :: rest :: more =>
    let tail := Text.join ':' (rest :: more)
    let fraction := tail.drop 2
    let afterFraction :=
      match fraction with
      | c :: digits => if c = '.' then digits.dropWhile isDigit else fraction
      | [] => []
    isShort hour && isPair minute && isPair (tail.take 2) && isOffset afterFraction
  | _ => false

/-- Whether a text is a day, or a day with a time. When there is no time `isField` tells how the
month and the day of the month are written. -/
def isMoment (isField : Text → Bool) (t : Text) : Bool :=
  let year := t.take 4
  let t := t.drop 4
  let month := (t.drop 1).takeWhile isDigit
  let u := t.drop (1 + month.length)
  let day := (u.drop 1).takeWhile isDigit
  let rest := u.drop (1 + day.length)
  let dashed := isAll isDigit year && year.length = 4 && t.head? = some (CodePoint.ofChar '-')
    && u.head? = some (CodePoint.ofChar '-')
  let timed :=
    match rest with
    | c :: time =>
      if c = 'T' || c = 't' then isTime time
      else isSpaceOrTab c && isTime (time.dropWhile isSpaceOrTab)
    | [] => false
  dashed && ((isField month && isField day && rest = []) || (isShort month && isShort day && timed))

/-- Whether a text is recognised as a day or moment: a day alone has two digits for its month and
two for the day of the month. -/
def isTimestamp (t : Text) : Bool := isMoment isPair t

/-- The words for truth values. -/
def booleanWords : List String := [
  "yes", "Yes", "YES", "no", "No", "NO", "true", "True", "TRUE", "false", "False", "FALSE",
  "on", "On", "ON", "off", "Off", "OFF"]

/-- A text without the line break that ends it, if anything stands before the break. How a scalar is
written does not depend on that break. -/
def withoutBreak (t : Text) : Text :=
  match t.getLast? with
  | some c => if c = '\n' && t.length != 1 then t.dropLast else t
  | none => []

/-- The tag of plain scalars that consist of an indicator. Nothing has this tag for its own. -/
def indicator : Tag := ofName (standard ++ "yaml")

/-- The tag of a plain scalar. -/
def ofPlain (t : Text) : Tag :=
  let u := withoutBreak t
  if isWord booleanWords u then bool
  else if isFloat u then float
  else if isInt u then int
  else if u = Text.ofString "<<" then merge
  else if isWord ["~", "null", "Null", "NULL", ""] u then null
  else if isTimestamp u then timestamp
  else if u = Text.ofString "=" then value
  else if isWord ["!", "&", "*"] u then indicator
  else str

end Tag

end BundleManifest.Yaml
