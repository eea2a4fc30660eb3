/-
# BundleManifest.Config.Moment — days and moments

A day has a year, a month and a day of the month; a moment is a time of a day, with an offset from
universal time when one is known. `Moment.isSame` compares moments: two with offsets are the same
if they are at the same time everywhere, and a moment with an offset is never one without.
-/
import BundleManifest.Text.Basic

namespace BundleManifest

/-- A day of the calendar. -/
structure Date where
  year : Nat
  month : Nat
  day : Nat
  deriving DecidableEq, Repr

/-- A time of a day, with an offset in seconds from universal time when one is known. -/
structure Moment where
  date : Date
  hour : Nat
  minute : Nat
  second : Nat
  microsecond : Nat
  offset : Option Int
  deriving DecidableEq, Repr

namespace Date

/-- The number of days of a month. -/
def monthLength (year month : Nat) : Nat :=
  if month = 2 then
    if year % 4 = 0 && (year % 100 ≠ 0 || year % 400 = 0) then 29 else 28
  else if month = 4 || month = 6 || month = 9 || month = 11 then 30
  else 31

/-- The number of days of the first months of a year. -/
def daysOfMonths (year : Nat) : Nat → Nat
  | 0 => 0
  | n + 1 => daysOfMonths year n + monthLength year (n + 1)

/-- The number of days before a day, counted from the first day of the year one. -/
def daysBefore (d : Date) : Nat :=
  let years := d.year - 1
  years * 365 + years / 4 - years / 100 + years / 400 + daysOfMonths d.year (d.month - 1)
    + (d.day - 1)

/-- The numbers of a day, the year first. -/
def fields (d : Date) : List Nat := [d.year, d.month, d.day]

/-- A date in the notation of messages. -/
def shown (d : Date) : Text :=
  "datetime.date(" ++ Text.separated ", " (d.fields.map Text.ofNat) ++ ")"

end Date

namespace Moment

/-- An offset from universal time in the notation of messages. A negative offset is shown as whole
days before and seconds after. -/
def offsetShown (seconds : Int) : Text :=
  if seconds = 0 then "datetime.timezone.utc"
  else
    let days := seconds.fdiv 86400
    let rest := seconds.fmod 86400
    let parts : List Text :=
      (if days = 0 then [] else ["days=" ++ Text.ofInt days])
        ++ (if rest = 0 then [] else ["seconds=" ++ Text.ofInt rest])
    "datetime.timezone(datetime.timedelta(" ++ Text.separated ", " parts ++ "))"

/-- A moment in the notation of messages. Seconds and microseconds of zero at the end are left
out. -/
def shown (m : Moment) : Text :=
  let numbers := m.date.fields ++ [m.hour, m.minute]
    ++ (if m.second = 0 && m.microsecond = 0 then [] else [m.second])
    ++ (if m.microsecond = 0 then [] else [m.microsecond])
  let parts := numbers.map Text.ofNat
    ++ (match m.offset with
      | none => []
      | some seconds => ["tzinfo=" ++ offsetShown seconds])
  "datetime.datetime(" ++ Text.separated ", " parts ++ ")"

/-- The microseconds between the beginning of the year one and a moment, by its own clock. -/
def clock (m : Moment) : Nat :=
  (((m.date.daysBefore * 24 + m.hour) * 60 + m.minute) * 60 + m.second) * 1000000 + m.microsecond

/-- Whether two moments are the same. -/
def isSame (m n : Moment) : Bool :=
  match m.offset, n.offset with
  | some a, some b => Int.ofNat m.clock - a * 1000000 == Int.ofNat n.clock - b * 1000000
  | none, none => m == n
  | _, _ => false

end Moment

end BundleManifest
