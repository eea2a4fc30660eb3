/-
# BundleManifest.Config.Fault — scalars that denote no value

A scalar of a configuration file may look like a number or a day and still denote none, or it may be
tagged as something that it is not, or name a code point that does not exist. Numbers can also be
too large to be read or shown. Each cause has its words in `ScalarFault.message`.
-/
import BundleManifest.Config.Value

namespace BundleManifest

/-- Why a scalar denotes no value of its type. -/
inductive ScalarFault where
  | notBoolean (t : Text)
  | notInteger (base : Nat) (t : Text)
  /-- A number is written with more digits than are read. -/
  | tooManyDigits (count : Nat)
  /-- An integer has more digits than are written. -/
  | tooLongToShow
  | notReal (t : Text)
  /-- A power of sixty is beyond all real numbers. -/
  | tooLargeForReal
  | emptyNumber
  /-- A number past the last code point. -/
  | pointTooLarge
  /-- A number past all that are taken for code points. -/
  | pointTooLong
  /-- A scalar stands for itself. -/
  | endless
  | notMoment
  /-- A map stands where a day or moment is expected. -/
  | momentOfMap
  | badYear (year : Nat)
  | badMonth
  | badDay
  | badHour
  | badMinute
  | badSecond
  | badOffset (seconds : Int)
  deriving DecidableEq, Repr

namespace ScalarFault

/-- A length of time in the notation of messages: days, and seconds that are never negative. -/
def lengthShown (seconds : Int) : Text :=
  let days := seconds.fdiv 86400
  let rest := seconds.fmod 86400
  "datetime.timedelta(days=" ++ Text.ofInt days
    ++ (if rest = 0 then Text.ofString ")" else ", seconds=" ++ Text.ofInt rest ++ ")")

/-- The most code points of a quoted text that are shown when it is no integer. -/
def shownLimit : Nat := 200

/-- What is said about a scalar that denotes no value. -/
def message : ScalarFault → Text
  | notBoolean t => Text.quoted t
  | notInteger base t =>
    "invalid literal for int() with base " ++ Text.ofNat base ++ ": "
      ++ (Text.quoted t).take shownLimit
  | tooManyDigits count =>
    "Exceeds the limit (4300 digits) for integer string conversion: value has "
      ++ Text.ofNat count ++ " digits; use sys.set_int_max_str_digits() to increase the limit"
  | tooLongToShow =>
    "Exceeds the limit (4300 digits) for integer string conversion; " ++
      "use sys.set_int_max_str_digits() to increase the limit"
  | notReal t => "could not convert string to float: " ++ Text.quoted t
  | tooLargeForReal => "int too large to convert to float"
  | emptyNumber => "string index out of range"
  | pointTooLarge => "chr() arg not in range(0x110000)"
  | pointTooLong => "Python int too large to convert to C int"
  | endless => "maximum recursion depth exceeded"
  | notMoment => "'NoneType' object has no attribute 'groupdict'"
  | momentOfMap => "expected string or bytes-like object, got 'list'"
  | badYear year => "year " ++ Text.ofNat year ++ " is out of range"
  | badMonth => "month must be in 1..12"
  | badDay => "day is out of range for month"
  | badHour => "hour must be in 0..23"
  | badMinute => "minute must be in 0..59"
  | badSecond => "second must be in 0..59"
  | badOffset seconds =>
    "offset must be a timedelta strictly between -timedelta(hours=24) and timedelta(hours=24), not "
      ++ lengthShown seconds ++ "."

end ScalarFault

end BundleManifest
