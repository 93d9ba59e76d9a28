/-
Module: VesselHub.Time.Reader
Purpose: Read instants from date, time and offset, left to right, and name the first thing wrong.
Main exports: TimeError, Instant.parse
-/
import VesselHub.Text.Blank
import VesselHub.Time.Instant

namespace VesselHub

/-- Why a text is not a point in time. -/
inductive TimeError where
  | tooShort
  | badCharacter
  | outOfRange
  | trailing
deriving DecidableEq, Repr

/-- The wording of a complaint. -/
def TimeError.message : TimeError → String
  | .tooShort => "premature end of input"
  | .badCharacter => "input contains invalid characters"
  | .outOfRange => "input is out of range"
  | .trailing => "trailing input"

namespace Instant

/-- Reads a fixed number of digits. -/
def readDigits : Nat → Nat → List Char → Except TimeError (Nat × List Char)
  | 0, total, rest => .ok (total, rest)
  | _ + 1, _, [] => .error .badCharacter
  | count + 1, total, character :: rest =>
      if character.isDigit then
        readDigits count (total * 10 + (character.toNat - '0'.toNat)) rest
      else .error .badCharacter

/-- Reads one character of a class. -/
def readMark (isMark : Char → Bool) : List Char → Except TimeError (List Char)
  | [] => .error .badCharacter
  | character :: rest => if isMark character then .ok rest else .error .badCharacter

def byteCount (characters : List Char) : Nat :=
  characters.foldr (fun character count => character.utf8Size + count) 0

/-- Reads the nanoseconds after a point, if there is one. Digits after the ninth do not count. -/
def readFraction : List Char → Except TimeError (Nat × List Char)
  | '.' :: rest =>
      let digits := rest.takeWhile Char.isDigit
      match digits, rest with
      | [], [] => .error .tooShort
      | [], _ => .error .badCharacter
      | _, _ =>
          let kept := digits.take 9
          let number := kept.foldl (fun total digit => total * 10 + (digit.toNat - '0'.toNat)) 0
          .ok (number * Nat.pow 10 (9 - kept.length), rest.drop digits.length)
  | rest => .ok (0, rest)

/-- Reads two digits of an offset. With fewer than two bytes left the text is too short. -/
def readPair (characters : List Char) : Except TimeError (Nat × List Char) :=
  if byteCount characters < 2 then .error .tooShort else readDigits 2 0 characters

/-- Reads hours and minutes of an offset, in minutes. -/
def readClock (characters : List Char) : Except TimeError (Int × List Char) := do
  let (hours, rest) ← readPair characters
  if rest.isEmpty then throw .tooShort
  let rest ← readMark (· = ':') rest
  let (minutes, rest) ← readPair rest
  if 60 ≤ minutes then throw .outOfRange
  return (hours * 60 + minutes, rest)

/-- Reads the distance from UTC, in minutes. -/
def readOffset : List Char → Except TimeError (Int × List Char)
  | [] => .error .tooShort
  | sign :: rest =>
      if sign = 'Z' ∨ sign = 'z' then .ok (0, rest)
      else if sign = '+' then readClock rest
      else if sign = '-' ∨ sign = '\u2212' then
        (readClock rest).map fun found => (-found.1, found.2)
      else .error .badCharacter

/-- Reads a date and checks it against the calendar. -/
def readDate (characters : List Char) : Except TimeError (Date × List Char) := do
  let (year, rest) ← readDigits 4 0 characters
  let rest ← readMark (· = '-') rest
  let (month, rest) ← readDigits 2 0 rest
  let rest ← readMark (· = '-') rest
  let (day, rest) ← readDigits 2 0 rest
  let date : Date := { year, month, day }
  if date.isValid then return (date, rest) else throw .outOfRange

/-- Reads a time of day with its fraction: the second of the day and the nanoseconds. Second 60 is
a leap second, which belongs to the second before. -/
def readTime (characters : List Char) : Except TimeError ((Nat × Nat) × List Char) := do
  let (hour, rest) ← readDigits 2 0 characters
  let rest ← readMark (· = ':') rest
  let (minute, rest) ← readDigits 2 0 rest
  let rest ← readMark (· = ':') rest
  let (second, rest) ← readDigits 2 0 rest
  let (fraction, rest) ← readFraction rest
  if 24 ≤ hour ∨ 60 ≤ minute ∨ 61 ≤ second then throw .outOfRange
  let leaping := second = 60
  let ofDay := hour * 3600 + minute * 60 + (if leaping then 59 else second)
  return ((ofDay, fraction + (if leaping then leapNanos else 0)), rest)

/-- Reads an instant from the characters of its text. -/
def read (characters : List Char) : Except TimeError Instant := do
  if byteCount characters < 19 then throw .tooShort
  let (date, rest) ← readDate characters
  let rest ← readMark (fun mark => mark = 'T' || mark = 't' || mark = ' ') rest
  let ((ofDay, nanos), rest) ← readTime rest
  let (offset, rest) ← readOffset rest
  if !rest.isEmpty then throw .trailing
  if 1440 ≤ offset.natAbs then throw .outOfRange
  return { seconds := date.dayNumber * secondsPerDay + ofDay - offset * 60, nanos }

/-- The instant that a text names, white space at its ends aside. The distance from UTC has to be
given. -/
def parse (text : String) : Except TimeError Instant :=
  read (Text.trimChars Text.isBlank text.toList)

end Instant

end VesselHub
