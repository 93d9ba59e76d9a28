/-
Module: VesselHub.Time.Calendar
Purpose: Dates of the Gregorian calendar, extended to all years, and the days between them.
Main exports: Date, Date.isValid, Date.dayNumber, Date.ofDayNumber
-/

namespace VesselHub

/-- A date. Years count through zero into the negative numbers. -/
structure Date where
  year : Int
  month : Nat
  day : Nat
deriving DecidableEq, Repr

namespace Date

def isLeapYear (year : Int) : Bool :=
  year % 4 == 0 && (year % 100 != 0 || year % 400 == 0)

/-- The lengths of the months of a year. -/
def monthLengths (year : Int) : List Nat :=
  [31, if isLeapYear year then 29 else 28, 31, 30, 31, 30, 31, 31, 30, 31, 30, 31]

def daysInMonth (year : Int) (month : Nat) : Nat :=
  if month = 0 then 0 else (monthLengths year).getD (month - 1) 0

/-- Whether the month exists and has the day. -/
def isValid (date : Date) : Bool :=
  1 ≤ date.day && date.day ≤ daysInMonth date.year date.month

/-- Days from the first day of year 0 to the first day of a year. -/
def daysBeforeYear (year : Int) : Int :=
  365 * year + (year + 3) / 4 - (year + 99) / 100 + (year + 399) / 400

/-- The days of some months together. -/
def totalDays (lengths : List Nat) : Nat :=
  lengths.foldr (· + ·) 0

/-- Days from the first day of a year to the first day of a month of it. -/
def daysBeforeMonth (year : Int) (month : Nat) : Nat :=
  totalDays ((monthLengths year).take (month - 1))

/-- Days from the first day of year 0 to 1 January 1970. -/
def epochDay : Int := 719528

/-- Days from 1 January 1970 to a date. -/
def dayNumber (date : Date) : Int :=
  daysBeforeYear date.year + daysBeforeMonth date.year date.month + date.day - 1 - epochDay

/-- The year that a day, counted from the first day of year 0, lies in. The mean length of a year
gives it up to one. -/
def yearOfDay (day : Int) : Int :=
  let estimate := day * 400 / 146097
  if day < daysBeforeYear estimate then estimate - 1
  else if daysBeforeYear (estimate + 1) ≤ day then estimate + 1
  else estimate

/-- Month and day of the month of a day counted from the start of the year. -/
def monthAndDay : List Nat → Nat → Nat × Nat
  | [], day => (1, day + 1)
  | length :: lengths, day =>
      if day < length then (1, day + 1)
      else
        let later := monthAndDay lengths (day - length)
        (later.1 + 1, later.2)

/-- The date a number of days after 1 January 1970. -/
def ofDayNumber (number : Int) : Date :=
  let day := number + epochDay
  let year := yearOfDay day
  let found := monthAndDay (monthLengths year) (day - daysBeforeYear year).toNat
  { year, month := found.1, day := found.2 }

end Date

end VesselHub
