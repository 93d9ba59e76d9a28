/-
Module: VesselHub.Proofs.Time.Civil
Purpose: What a text that is read says: a date and a time of day, at a distance from UTC. The date
  has a year of four digits, but in UTC the instant may lie in the year before or after those.
Main exports: Civil, Civil.LeavesYears, Instant.parse_eq, Civil.isPlain_iff
-/
import VesselHub.Proofs.Time.Instant

namespace VesselHub

/-- A date and a time of day, at a distance from UTC in minutes. -/
structure Civil where
  date : Date
  ofDay : Nat
  nanos : Nat
  offset : Int
deriving DecidableEq, Repr

namespace Civil

open Instant

def instant (civil : Civil) : Instant where
  seconds := civil.date.dayNumber * secondsPerDay + civil.ofDay - civil.offset * 60
  nanos := civil.nanos

/-- Reads what the characters of a text say. -/
def read (characters : List Char) : Except TimeError Civil := do
  if byteCount characters < 19 then throw .tooShort
  let (date, rest) ← readDate characters
  let rest ← readMark (fun mark => mark = 'T' || mark = 't' || mark = ' ') rest
  let ((ofDay, nanos), rest) ← readTime rest
  let (offset, rest) ← readOffset rest
  if !rest.isEmpty then throw .trailing
  if 1440 ≤ offset.natAbs then throw .outOfRange
  return { date, ofDay, nanos, offset }

/-- What a text says, white space at its ends aside. -/
def parse (text : String) : Except TimeError Civil :=
  read (Text.trimChars Text.isBlank text.toList)

/-- In UTC it is the year before the first or after the last of four digits: before the first day of
year 0 there, or behind the last day of year 9999. -/
def LeavesYears (civil : Civil) : Prop :=
  (civil.date = ⟨0, 1, 1⟩ ∧ (civil.ofDay : Int) < civil.offset * 60) ∨
    (civil.date = ⟨9999, 12, 31⟩ ∧ secondsPerDay ≤ civil.ofDay - civil.offset * 60)

instance (civil : Civil) : Decidable civil.LeavesYears :=
  inferInstanceAs (Decidable (_ ∨ _))

/-- A date that exists with a year of four digits, a second of the day, and less than a day from
UTC. -/
structure IsValid (civil : Civil) : Prop where
  date : civil.date.isValid
  year_nonneg : 0 ≤ civil.date.year
  year_le : civil.date.year ≤ 9999
  ofDay_lt : (civil.ofDay : Int) < secondsPerDay
  offset_lt : civil.offset.natAbs < 1440

end Civil

/-- An instant that is read is the one that the text says. -/
theorem Instant.parse_eq (text : String) : parse text = (Civil.parse text).map Civil.instant := by
  change read _ = Civil.instant <$> Civil.read _
  simp only [read, Civil.read, map_bind, apply_ite (Functor.map Civil.instant), map_pure]
  rfl

namespace Civil

/-! ### What is read is valid -/

open Instant

private theorem readDigits_lt {count total number : Nat} {characters rest : List Char}
    (read_eq : readDigits count total characters = .ok (number, rest)) :
    number < (total + 1) * 10 ^ count := by
  induction count generalizing total characters with
  | zero =>
      cases read_eq
      omega
  | succ count induction_step =>
      cases characters with
      | nil => cases read_eq
      | cons character characters =>
          rw [readDigits] at read_eq
          split at read_eq
          · rename_i digit
            have small : total * 10 + (character.toNat - '0'.toNat) < (total + 1) * 10 :=
              digits_lt (List.forall_mem_singleton.2 digit) total
            have below := induction_step read_eq
            calc
              number < (total * 10 + (character.toNat - '0'.toNat) + 1) * 10 ^ count := below
              _ ≤ (total + 1) * 10 * 10 ^ count := Nat.mul_le_mul_right _ small
              _ = (total + 1) * 10 ^ (count + 1) := by rw [Nat.mul_assoc, ← Nat.pow_succ']
          · cases read_eq

/-- A date that is read exists, in a year of four digits. -/
private theorem readDate_valid {characters rest : List Char} {date : Date}
    (read_eq : readDate characters = .ok (date, rest)) :
    date.isValid ∧ 0 ≤ date.year ∧ date.year ≤ 9999 := by
  obtain ⟨⟨year, _⟩, year_eq, read_eq⟩ := exists_of_bind read_eq
  obtain ⟨_, -, read_eq⟩ := exists_of_bind read_eq
  obtain ⟨_, -, read_eq⟩ := exists_of_bind read_eq
  obtain ⟨_, -, read_eq⟩ := exists_of_bind read_eq
  obtain ⟨_, -, read_eq⟩ := exists_of_bind read_eq
  have four_digits := readDigits_lt year_eq
  simp only at read_eq
  split at read_eq
  · rename_i valid
    cases read_eq
    exact ⟨valid, Int.natCast_nonneg year, Int.ofNat_le.2 (Nat.le_of_lt_succ four_digits)⟩
  · cases read_eq

private theorem readTime_lt {characters rest : List Char} {ofDay nanos : Nat}
    (read_eq : readTime characters = .ok ((ofDay, nanos), rest)) :
    (ofDay : Int) < secondsPerDay := by
  obtain ⟨hour, -, read_eq⟩ := exists_of_bind read_eq
  obtain ⟨_, -, read_eq⟩ := exists_of_bind read_eq
  obtain ⟨minute, -, read_eq⟩ := exists_of_bind read_eq
  obtain ⟨_, -, read_eq⟩ := exists_of_bind read_eq
  obtain ⟨second, -, read_eq⟩ := exists_of_bind read_eq
  obtain ⟨_, -, read_eq⟩ := exists_of_bind read_eq
  simp only at read_eq
  split at read_eq
  · cases read_eq
  rename_i in_range
  cases read_eq
  rw [secondsPerDay]
  split <;> omega

/-- Whatever a text says is valid. -/
theorem isValid_of_parse {text : String} {civil : Civil} (parsed : parse text = .ok civil) :
    civil.IsValid := by
  rw [parse, read] at parsed
  split at parsed
  · cases parsed
  obtain ⟨date, date_eq, parsed⟩ := exists_of_bind parsed
  obtain ⟨_, -, parsed⟩ := exists_of_bind parsed
  obtain ⟨time, time_eq, parsed⟩ := exists_of_bind parsed
  obtain ⟨offset, -, parsed⟩ := exists_of_bind parsed
  simp only at parsed
  split at parsed
  · cases parsed
  split at parsed
  · cases parsed
  rename_i near_utc
  cases parsed
  obtain ⟨date_valid, year_nonneg, year_le⟩ := readDate_valid date_eq
  exact ⟨date_valid, year_nonneg, year_le, readTime_lt time_eq, Nat.lt_of_not_le near_utc⟩

/-! ### The year in UTC -/

/-- A date has a year of four digits from the first day of year 0 on, up to the day before that of
year 10000. -/
theorem four_digits_iff {date : Date} (valid : date.isValid) :
    (0 ≤ date.year ∧ date.year ≤ 9999) ↔
      0 ≤ date.dayNumber + Date.epochDay ∧ date.dayNumber + Date.epochDay < 3652425 := by
  have year_eq : Date.yearOfDay (date.dayNumber + Date.epochDay) = date.year :=
    congrArg Date.year (Date.ofDayNumber_dayNumber valid)
  have begun : 0 ≤ date.year ↔ 0 ≤ date.dayNumber + Date.epochDay := by
    rw [← year_eq]
    exact Date.le_yearOfDay_iff
  have ended : 10000 ≤ date.year ↔ 3652425 ≤ date.dayNumber + Date.epochDay := by
    rw [← year_eq]
    exact Date.le_yearOfDay_iff
  omega

/-- The instant lies in a year of four digits unless its distance from UTC takes it out of them. -/
theorem isPlain_iff {text : String} {civil : Civil} (parsed : parse text = .ok civil) :
    civil.instant.IsPlain ↔ ¬ civil.LeavesYears := by
  have valid := isValid_of_parse parsed
  have instant_parsed : Instant.parse text = .ok civil.instant := by
    rw [parse_eq, parsed]
    rfl
  have local_day := (four_digits_iff valid.date).1 ⟨valid.year_nonneg, valid.year_le⟩
  have utc_day := four_digits_iff
    (Date.isValid_ofDayNumber (civil.instant.seconds / secondsPerDay))
  rw [Date.dayNumber_ofDayNumber] at utc_day
  have first_day : civil.date = ⟨0, 1, 1⟩ ↔ civil.date.dayNumber = -Date.epochDay :=
    (Date.dayNumber_inj valid.date rfl).symm
  have last_day : civil.date = ⟨9999, 12, 31⟩ ↔ civil.date.dayNumber = 3652424 - Date.epochDay :=
    (Date.dayNumber_inj valid.date rfl).symm
  -- The time of day and the distance from UTC move the day by one at most.
  have plain_iff : civil.instant.IsPlain ↔
      0 ≤ civil.instant.seconds / secondsPerDay + Date.epochDay ∧
        civil.instant.seconds / secondsPerDay + Date.epochDay < 3652425 :=
    ⟨fun plain => utc_day.1 ⟨plain.year_nonneg, plain.year_le⟩, fun within =>
      ⟨Instant.isValid_of_parse instant_parsed, (utc_day.2 within).1, (utc_day.2 within).2⟩⟩
  have in_day := valid.ofDay_lt
  have near_utc := valid.offset_lt
  rw [plain_iff, LeavesYears, first_day, last_day, instant]
  simp only [secondsPerDay] at in_day ⊢
  omega

end Civil

end VesselHub
