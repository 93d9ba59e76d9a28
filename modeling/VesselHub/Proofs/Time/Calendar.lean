/-
Module: VesselHub.Proofs.Time.Calendar
Purpose: The calendar counts days exactly: the date of a day exists and is that many days away, and
  every date that exists is the date of its day.
Main exports: Date.isValid_ofDayNumber, Date.dayNumber_ofDayNumber, Date.ofDayNumber_dayNumber
-/
import VesselHub.Time.Calendar

namespace VesselHub.Date

/-! ### Years -/

/-- The estimate is off by less than a year in either direction. -/
theorem year_bounds (day : Int) :
    daysBeforeYear (yearOfDay day) ≤ day ∧ day < daysBeforeYear (yearOfDay day + 1) := by
  have far_below : daysBeforeYear (day * 400 / 146097 - 1) ≤ day := by
    rw [daysBeforeYear]
    omega
  have far_above : day < daysBeforeYear (day * 400 / 146097 + 1 + 1) := by
    rw [daysBeforeYear]
    omega
  rw [yearOfDay]
  generalize day * 400 / 146097 = estimate at far_below far_above ⊢
  split
  · rw [Int.sub_add_cancel]
    exact ⟨far_below, by assumption⟩
  · split
    · exact ⟨by assumption, far_above⟩
    · exact ⟨by omega, by omega⟩

private theorem daysBeforeYear_le {one other : Int} (earlier : one ≤ other) :
    daysBeforeYear one ≤ daysBeforeYear other := by
  rw [daysBeforeYear, daysBeforeYear]
  omega

/-- A day lies in a year or later from the first day of the year on. -/
theorem le_yearOfDay_iff {year day : Int} : year ≤ yearOfDay day ↔ daysBeforeYear year ≤ day := by
  obtain ⟨first, last⟩ := year_bounds day
  constructor
  · intro reached
    exact Int.le_trans (daysBeforeYear_le reached) first
  · intro begun
    apply Int.le_of_not_gt
    intro later
    have passed := daysBeforeYear_le (Int.add_one_le_iff.2 later)
    omega

/-- The months of a year make up the days to the next. -/
theorem totalDays_monthLengths (year : Int) :
    (totalDays (monthLengths year) : Int) = daysBeforeYear (year + 1) - daysBeforeYear year := by
  have later : daysBeforeYear (year + 1) - daysBeforeYear year =
      365 + ((year + 4) / 4 - (year + 3) / 4) - ((year + 100) / 100 - (year + 99) / 100) +
        ((year + 400) / 400 - (year + 399) / 400) := by
    rw [daysBeforeYear, daysBeforeYear]
    omega
  cases leap : isLeapYear year with
  | true =>
      have sum_eq : totalDays (monthLengths year) = 366 := by
        simp only [monthLengths, leap]
        rfl
      simp only [isLeapYear, Bool.and_eq_true, Bool.or_eq_true, beq_iff_eq, bne_iff_ne] at leap
      rw [sum_eq, later]
      omega
  | false =>
      have sum_eq : totalDays (monthLengths year) = 365 := by
        simp only [monthLengths, leap]
        rfl
      have common : ¬ (year % 4 = 0 ∧ (year % 100 ≠ 0 ∨ year % 400 = 0)) := by
        intro divides
        rw [← Bool.not_eq_true] at leap
        apply leap
        simpa [isLeapYear] using divides
      rw [sum_eq, later]
      omega

/-! ### Months -/

theorem totalDays_cons (length : Nat) (lengths : List Nat) :
    totalDays (length :: lengths) = length + totalDays lengths := rfl

/-- A day within some months lies in one of them, behind those before. -/
theorem monthAndDay_spec (lengths : List Nat) (day : Nat) (within : day < totalDays lengths) :
    1 ≤ (monthAndDay lengths day).1 ∧ 1 ≤ (monthAndDay lengths day).2 ∧
      (monthAndDay lengths day).2 ≤ lengths.getD ((monthAndDay lengths day).1 - 1) 0 ∧
      totalDays (lengths.take ((monthAndDay lengths day).1 - 1)) + (monthAndDay lengths day).2 =
        day + 1 := by
  induction lengths generalizing day with
  | nil => exact absurd within (Nat.not_lt_zero day)
  | cons length lengths induction_step =>
      rw [monthAndDay]
      split
      · rename_i here
        simpa [Nat.succ_le_iff, totalDays] using here
      · rename_i later
        rw [totalDays_cons] at within
        obtain ⟨month_pos, day_pos, fits, count⟩ := induction_step (day - length) (by omega)
        generalize monthAndDay lengths (day - length) = found at month_pos day_pos fits count
        obtain ⟨month, rest⟩ := found
        obtain ⟨before, rfl⟩ : ∃ before, month = before + 1 := ⟨month - 1, by omega⟩
        simp only [Nat.add_sub_cancel] at fits count ⊢
        refine ⟨by omega, day_pos, by simpa using fits, ?_⟩
        rw [List.take_succ_cons, totalDays_cons]
        omega

/-- The day of a month is found behind the months before it, and lies within the year. -/
theorem monthAndDay_eq (lengths : List Nat) {month day : Nat} (month_pos : 1 ≤ month)
    (day_pos : 1 ≤ day) (fits : day ≤ lengths.getD (month - 1) 0) :
    monthAndDay lengths (totalDays (lengths.take (month - 1)) + day - 1) = (month, day) ∧
      totalDays (lengths.take (month - 1)) + day ≤ totalDays lengths := by
  induction lengths generalizing month with
  | nil => exact absurd (Nat.le_trans day_pos fits) (Nat.not_succ_le_zero 0)
  | cons length lengths induction_step =>
      obtain ⟨before, rfl⟩ : ∃ before, month = before + 1 := ⟨month - 1, by omega⟩
      rw [Nat.add_sub_cancel] at fits ⊢
      cases before with
      | zero =>
          rw [List.getD_cons_zero] at fits
          rw [List.take_zero, totalDays_cons, monthAndDay]
          have here : totalDays [] + day - 1 < length := by
            rw [totalDays, List.foldr_nil]
            omega
          rw [if_pos here, totalDays, List.foldr_nil]
          exact ⟨Prod.ext rfl (by omega), by omega⟩
      | succ before =>
          rw [List.getD_cons_succ] at fits
          obtain ⟨found, within⟩ := induction_step (Nat.succ_pos before) fits
          rw [Nat.succ_eq_add_one, Nat.add_sub_cancel] at found within
          rw [List.take_succ_cons, totalDays_cons, totalDays_cons, monthAndDay]
          have later : length + totalDays (lengths.take before) + day - 1 - length =
              totalDays (lengths.take before) + day - 1 := by omega
          rw [if_neg (by omega), later, found]
          exact ⟨rfl, by omega⟩

/-! ### Dates -/

/-- Months and days have at most two digits. -/
theorem small_of_isValid {date : Date} (valid : date.isValid) :
    date.month < 100 ∧ date.day < 100 := by
  rw [isValid, Bool.and_eq_true, decide_eq_true_eq, decide_eq_true_eq, daysInMonth] at valid
  obtain ⟨day_pos, fits⟩ := valid
  split at fits
  · omega
  · have length_eq : (monthLengths date.year).length = 12 := rfl
    have month_le : date.month - 1 < (monthLengths date.year).length := by
      apply Nat.lt_of_not_le
      intro beyond
      rw [List.getD_eq_getElem?_getD, List.getElem?_eq_none beyond, Option.getD_none] at fits
      omega
    have all_short : ∀ length ∈ monthLengths date.year, length < 100 := by
      rw [monthLengths]
      cases isLeapYear date.year <;> decide
    rw [List.getD_eq_getElem?_getD, List.getElem?_eq_getElem month_le, Option.getD_some] at fits
    have short := all_short _ (List.getElem_mem month_le)
    omega

/-- What the date of a day is made of. -/
theorem ofDayNumber_spec (number : Int) :
    (ofDayNumber number).isValid ∧ (ofDayNumber number).dayNumber = number := by
  obtain ⟨first, last⟩ := year_bounds (number + epochDay)
  have sum_eq := totalDays_monthLengths (yearOfDay (number + epochDay))
  rw [isValid, dayNumber, ofDayNumber]
  generalize yearOfDay (number + epochDay) = year at first last sum_eq ⊢
  obtain ⟨month_pos, day_pos, fits, count⟩ := monthAndDay_spec (monthLengths year)
    (number + epochDay - daysBeforeYear year).toNat (by omega)
  simp only
  generalize monthAndDay (monthLengths year) (number + epochDay - daysBeforeYear year).toNat =
    found at month_pos day_pos fits count ⊢
  constructor
  · rw [Bool.and_eq_true, decide_eq_true_eq, decide_eq_true_eq, daysInMonth, if_neg (by omega)]
    exact ⟨day_pos, fits⟩
  · rw [daysBeforeMonth]
    omega

/-- A date that exists has a month, and a day of it. -/
theorem isValid_iff (date : Date) :
    date.isValid ↔ 1 ≤ date.month ∧ 1 ≤ date.day ∧
      date.day ≤ (monthLengths date.year).getD (date.month - 1) 0 := by
  rw [isValid, Bool.and_eq_true, decide_eq_true_eq, decide_eq_true_eq, daysInMonth]
  split <;> omega

/-- A date that exists is the date of its day. -/
theorem ofDayNumber_dayNumber {date : Date} (valid : date.isValid) :
    ofDayNumber date.dayNumber = date := by
  obtain ⟨year, month, day⟩ := date
  obtain ⟨month_pos, day_pos, fits⟩ := (isValid_iff _).1 valid
  dsimp only at month_pos day_pos fits
  obtain ⟨found, within⟩ := monthAndDay_eq (monthLengths year) month_pos day_pos fits
  have year_length := totalDays_monthLengths year
  have day_eq : dayNumber ⟨year, month, day⟩ + epochDay =
      daysBeforeYear year +
        (totalDays ((monthLengths year).take (month - 1)) + day - 1 : Nat) := by
    rw [dayNumber, daysBeforeMonth]
    dsimp only
    omega
  have year_eq : yearOfDay (dayNumber ⟨year, month, day⟩ + epochDay) = year := by
    have begun : year ≤ yearOfDay (dayNumber ⟨year, month, day⟩ + epochDay) :=
      le_yearOfDay_iff.2 (by omega)
    have not_over : ¬ year + 1 ≤ yearOfDay (dayNumber ⟨year, month, day⟩ + epochDay) := by
      rw [le_yearOfDay_iff]
      omega
    omega
  have in_year : (dayNumber ⟨year, month, day⟩ + epochDay - daysBeforeYear year).toNat =
      totalDays ((monthLengths year).take (month - 1)) + day - 1 := by omega
  rw [ofDayNumber, year_eq, in_year, found]

/-- Dates that exist are told apart by their days. -/
theorem dayNumber_inj {date other : Date} (valid : date.isValid) (other_valid : other.isValid) :
    date.dayNumber = other.dayNumber ↔ date = other := by
  refine ⟨fun same => ?_, congrArg dayNumber⟩
  rw [← ofDayNumber_dayNumber valid, same, ofDayNumber_dayNumber other_valid]

theorem isValid_ofDayNumber (number : Int) : (ofDayNumber number).isValid :=
  (ofDayNumber_spec number).1

theorem dayNumber_ofDayNumber (number : Int) : (ofDayNumber number).dayNumber = number :=
  (ofDayNumber_spec number).2

end VesselHub.Date
