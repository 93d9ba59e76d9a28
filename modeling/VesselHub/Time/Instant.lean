/-
Module: VesselHub.Time.Instant
Purpose: Points in time with nanoseconds and leap seconds, and the form in which they are sent.
Main exports: Instant, Instant.text
-/
import VesselHub.Time.Calendar

namespace VesselHub

/-- A point in time: seconds since the start of 1970 and nanoseconds into the second. During a
leap second the nanoseconds run on from one to two thousand million. -/
structure Instant where
  seconds : Int
  nanos : Nat
deriving DecidableEq, Repr

namespace Instant

def secondsPerDay : Int := 86400

def leapNanos : Nat := 1000000000

/-- A number with leading zeros up to a width. -/
def padded (width number : Nat) : List Char :=
  let digits := Nat.toDigits 10 number
  List.replicate (width - digits.length) '0' ++ digits

/-- Years of four digits are written plainly, all others with a sign. -/
def yearText (year : Int) : List Char :=
  if 0 ≤ year ∧ year ≤ 9999 then padded 4 year.toNat
  else if year < 0 then '-' :: padded 4 (-year).toNat
  else '+' :: padded 4 year.toNat

/-- The characters of the text of an instant. -/
def write (instant : Instant) : List Char :=
  let date := Date.ofDayNumber (instant.seconds / secondsPerDay)
  let inDay := (instant.seconds % secondsPerDay).toNat
  let leaping := leapNanos ≤ instant.nanos
  let second := inDay % 60 + (if leaping then 1 else 0)
  let nanos := if leaping then instant.nanos - leapNanos else instant.nanos
  yearText date.year ++ '-' :: padded 2 date.month ++ '-' :: padded 2 date.day ++
    'T' :: padded 2 (inDay / 3600) ++ ':' :: padded 2 (inDay / 60 % 60) ++
    ':' :: padded 2 second ++ '.' :: padded 3 (nanos / 1000000) ++ ['Z']

/-- The text of an instant: date and time in UTC, with milliseconds. -/
def text (instant : Instant) : String :=
  String.ofList instant.write

/-- The instant without what its text does not show. -/
def toMillis (instant : Instant) : Instant :=
  { instant with nanos := instant.nanos / 1000000 * 1000000 }

end Instant

end VesselHub
