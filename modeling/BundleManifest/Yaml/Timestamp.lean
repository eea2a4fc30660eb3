/-
# BundleManifest.Yaml.Timestamp — scalars that are days or moments

A day is a year, a month and a day of the month; a moment adds a time and perhaps an offset from
universal time. The numbers are checked against the calendar, the offset first.
-/
import BundleManifest.Config.Fault
import BundleManifest.Yaml.Tag

namespace BundleManifest.Yaml

open CodePoint (isDigit)
open Text (digitsValue)

/-- The day with these numbers. -/
def day (year month dayOfMonth : Nat) : Except ScalarFault Date :=
  if year = 0 then .error (.badYear year)
  else if month = 0 || 12 < month then .error .badMonth
  else if dayOfMonth = 0 || Date.monthLength year month < dayOfMonth then .error .badDay
  else .ok ⟨year, month, dayOfMonth⟩

/-- The offset from universal time that the end of a time gives. -/
def offset (t : Text) : Except ScalarFault (Option Int) :=
  match t.dropWhile isSpaceOrTab with
  | [] => .ok none
  | c :: rest =>
    if c = 'Z' then .ok (some 0)
    else
      let parts := (Text.split ':' rest).map digitsValue
      let seconds : Int := Int.ofNat (parts.headD 0 * 3600 + (parts.drop 1).headD 0 * 60)
      let seconds := if c = '-' then -seconds else seconds
      if seconds.natAbs < 86400 then .ok (some seconds) else .error (.badOffset seconds)

/-- Whether a code point may stand between a day and a time. -/
def isTimeMark (c : CodePoint) : Bool := c = 'T' || c = 't' || isSpaceOrTab c

/-- The day or moment that a scalar denotes. -/
def timestamp (t : Text) : Except ScalarFault Value :=
  let t := Tag.withoutBreak t
  if !Tag.isMoment Tag.isShort t then .error .notMoment
  else do
    let year := digitsValue (t.take 4)
    let month := (t.drop 5).takeWhile isDigit
    let u := t.drop (6 + month.length)
    let dayOfMonth := u.takeWhile isDigit
    let time := (u.drop dayOfMonth.length).dropWhile isTimeMark
    if time = [] then
      return .date (← day year (digitsValue month) (digitsValue dayOfMonth))
    else
      let hour := time.takeWhile isDigit
      let rest := time.drop (hour.length + 1)
      let minute := digitsValue (rest.take 2)
      let second := digitsValue ((rest.drop 3).take 2)
      let rest := rest.drop 5
      let (fraction, rest) :=
        match rest with
        | c :: digits =>
          if c = '.' then (digits.takeWhile isDigit, digits.dropWhile isDigit)
          else ([], rest)
        | [] => ([], [])
      let places := fraction.take 6
      let zone ← offset rest
      let date ← day year (digitsValue month) (digitsValue dayOfMonth)
      if 23 < digitsValue hour then throw .badHour
      if 59 < minute then throw .badMinute
      if 59 < second then throw .badSecond
      let microsecond := digitsValue places * Nat.pow 10 (6 - places.length)
      return .moment ⟨date, digitsValue hour, minute, second, microsecond, zone⟩

end BundleManifest.Yaml
