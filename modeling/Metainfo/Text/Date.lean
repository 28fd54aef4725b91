import Metainfo.Text.Human

/-!
# Calendar dates of timestamps

`formatTimestamp t` writes a count of seconds since 1970-01-01 00:00:00 UTC as
`YYYY-MM-DD HH:MM:SS UTC` in the proleptic Gregorian calendar.

* Days are counted with floor division, so a negative timestamp falls on the day
  before the epoch and its time of day is still from midnight.
* Years from 0 to 9999 have four digits; other years carry their sign and at least
  four digits (`+10000`, `-0001`).
* Only years from -262143 to 262142 have dates; a timestamp outside them is written as
  the plain integer.

`civilOfDays` is the usual era-based conversion: 400-year eras of 146097 days, with the
year starting in March so that the leap day ends it.
-/

namespace Metainfo
namespace Text

/-- The year, month and day of a count of days since 1970-01-01. -/
def civilOfDays (days : Int) : Int × Nat × Nat :=
  let z := days + 719468
  let era := z / 146097
  let doe := (z - era * 146097).toNat
  let yoe := (doe - doe / 1460 + doe / 36524 - doe / 146096) / 365
  let y : Int := (yoe : Int) + era * 400
  let doy := doe - (365 * yoe + yoe / 4 - yoe / 100)
  let mp := (5 * doy + 2) / 153
  let d := doy - (153 * mp + 2) / 5 + 1
  let m := if mp < 10 then mp + 3 else mp - 9
  (if m ≤ 2 then y + 1 else y, m, d)

/-- The least year with a date. -/
def minYear : Int := -262143

/-- The greatest year with a date. -/
def maxYear : Int := 262142

/-- Digits of `n`, zeros in front up to `width`. -/
def zeroPadded (width n : Nat) : String :=
  let s := toString n
  String.ofList (List.replicate (width - s.length) '0') ++ s

/-- A year: four digits, or a sign and at least four digits outside 0 to 9999. -/
def yearText (y : Int) : String :=
  if 0 ≤ y ∧ y ≤ 9999 then zeroPadded 4 y.toNat
  else (if y < 0 then "-" else "+") ++ zeroPadded 4 y.natAbs

/-- A timestamp as a UTC date and time, or as the integer when its year has no date. -/
def formatTimestamp (t : Int) : String :=
  let secs := (t % 86400).toNat
  let (y, m, d) := civilOfDays (t / 86400)
  if y < minYear ∨ maxYear < y then toString t
  else
    s!"{yearText y}-{twoDigits m}-{twoDigits d} " ++
      s!"{twoDigits (secs / 3600)}:{twoDigits (secs / 60 % 60)}:{twoDigits (secs % 60)} UTC"

end Text
end Metainfo
