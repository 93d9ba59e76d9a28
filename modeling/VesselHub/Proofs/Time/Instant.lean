/-
Module: VesselHub.Proofs.Time.Instant
Purpose: The text of an instant is read back as the instant, cut to milliseconds, if its year has
  four digits, and is not read otherwise.
Main exports: Instant.IsValid, Instant.IsPlain, Instant.text_toMillis, Instant.parse_text,
  Instant.parse_text_of_signed, Instant.isValid_of_parse
-/
import Mathlib.Algebra.Group.Nat.Defs
import VesselHub.Proofs.Time.Calendar
import VesselHub.Time.Reader

namespace VesselHub

/-- What two steps yield the second yields from what the first yields. -/
theorem exists_of_bind {Flaw First Second : Type} {first : Except Flaw First}
    {next : First → Except Flaw Second} {result : Second} (ran : first >>= next = .ok result) :
    ∃ value, first = .ok value ∧ next value = .ok result := by
  cases first with
  | error flaw => cases ran
  | ok value => exact ⟨value, rfl, ran⟩

namespace Text

private theorem trimChars_of_ends {drop : Char → Bool} {first last : Char} {characters : List Char}
    (opens : characters.head? = some first) (closes : characters.getLast? = some last)
    (keeps_first : drop first = false) (keeps_last : drop last = false) :
    trimChars drop characters = characters := by
  obtain ⟨rest, starts⟩ := List.head?_eq_some_iff.1 opens
  obtain ⟨inner, ends⟩ := List.getLast?_eq_some_iff.1 closes
  have from_left : characters.dropWhile drop = characters := by
    rw [starts, List.dropWhile_cons_of_neg (by simp [keeps_first])]
  rw [trimChars, from_left, ends, List.reverse_append, List.reverse_singleton,
    List.singleton_append, List.dropWhile_cons_of_neg (by simp [keeps_last]), List.reverse_cons,
    List.reverse_reverse]

private theorem isBlank_of_isDigit {character : Char} (digit : character.isDigit) :
    isBlank character = false := by
  simp only [Char.isDigit, Bool.and_eq_true, decide_eq_true_eq, ge_iff_le,
    UInt32.le_iff_toNat_le] at digit
  have low : 48 ≤ character.toNat := digit.1
  have high : character.toNat ≤ 57 := digit.2
  simp only [isBlank, Bool.or_eq_false_iff, Bool.and_eq_false_iff, decide_eq_false_iff_not,
    beq_eq_false_iff_ne]
  omega

end Text

namespace Instant

/-- Leap seconds come at the end of a minute. -/
def IsValid (instant : Instant) : Prop :=
  instant.nanos < leapNanos ∨ (instant.nanos < 2 * leapNanos ∧ instant.seconds % 60 = 59)

/-- A valid instant, the year of which is written with four digits. -/
structure IsPlain (instant : Instant) : Prop where
  valid : instant.IsValid
  year_nonneg : 0 ≤ (Date.ofDayNumber (instant.seconds / secondsPerDay)).year
  year_le : (Date.ofDayNumber (instant.seconds / secondsPerDay)).year ≤ 9999

/-! ### Digits -/

private theorem readDigits_append (digits rest : List Char) (total : Nat)
    (all_digits : ∀ digit ∈ digits, digit.isDigit) :
    readDigits digits.length total (digits ++ rest) =
      .ok (Nat.ofDigitChars 10 digits total, rest) := by
  induction digits generalizing total with
  | nil => rw [Nat.ofDigitChars_nil, List.length_nil, List.nil_append, readDigits]
  | cons digit digits induction_step =>
      rw [List.length_cons, List.cons_append, readDigits, if_pos (all_digits _ List.mem_cons_self),
        induction_step _ fun other member => all_digits other (List.mem_cons_of_mem _ member),
        Nat.ofDigitChars_cons, Nat.mul_comm total]

theorem le_length_padded (width number : Nat) : width ≤ (padded width number).length := by
  rw [padded, List.length_append, List.length_replicate]
  omega

theorem length_padded {width number : Nat} (pos : 0 < width) (fits : number < 10 ^ width) :
    (padded width number).length = width := by
  have shorter := (Nat.length_toDigits_le_iff (by decide : 1 < 10) pos).2 fits
  rw [padded, List.length_append, List.length_replicate]
  omega

theorem isDigit_of_mem_padded {width number : Nat} {digit : Char}
    (member : digit ∈ padded width number) : digit.isDigit := by
  rcases List.mem_append.1 member with zero | digits
  · rw [List.eq_of_mem_replicate zero]
    rfl
  · exact Nat.isDigit_of_mem_toDigits (by decide) (by decide) digits

theorem ofDigitChars_padded (width number : Nat) :
    Nat.ofDigitChars 10 (padded width number) 0 = number := by
  rw [padded, Nat.ofDigitChars_append, Nat.ofDigitChars_replicate_zero, Nat.mul_zero,
    Nat.ofDigitChars_ten_toDigits]

theorem readDigits_padded {width number : Nat} (pos : 0 < width) (fits : number < 10 ^ width)
    (rest : List Char) : readDigits width 0 (padded width number ++ rest) = .ok (number, rest) := by
  have read := readDigits_append (padded width number) rest 0 fun _ => isDigit_of_mem_padded
  rw [length_padded pos fits, ofDigitChars_padded] at read
  exact read

private theorem head?_padded {width : Nat} (pos : 0 < width) (number : Nat) :
    ∃ first, (padded width number).head? = some first ∧ first.isDigit := by
  have long := le_length_padded width number
  cases digits : padded width number with
  | nil =>
      rw [digits] at long
      exact absurd (Nat.lt_of_lt_of_le pos long) (Nat.lt_irrefl 0)
  | cons first rest =>
      exact ⟨first, rfl, isDigit_of_mem_padded (digits ▸ List.mem_cons_self)⟩

/-! ### Parts of the text -/

theorem readFraction_padded {number : Nat} (fits : number < 10 ^ 3) (rest : List Char) :
    readFraction ('.' :: (padded 3 number ++ 'Z' :: rest)) =
      .ok (number * 1000000, 'Z' :: rest) := by
  have digits_eq : (padded 3 number ++ 'Z' :: rest).takeWhile Char.isDigit = padded 3 number := by
    rw [List.takeWhile_append_of_pos fun _ => isDigit_of_mem_padded,
      List.takeWhile_cons_of_neg (by decide), List.append_nil]
  have length_eq := length_padded (by decide : 0 < 3) fits
  have number_eq := ofDigitChars_padded 3 number
  rw [Nat.ofDigitChars_eq_foldl] at number_eq
  unfold readFraction
  simp only [digits_eq]
  split
  · rename_i none_left _
    rw [none_left] at length_eq
    cases length_eq
  · rename_i none_left _
    rw [none_left] at length_eq
    cases length_eq
  · have scale : Nat.pow 10 (9 - (padded 3 number).length) = 1000000 :=
      congrArg (fun width => Nat.pow 10 (9 - width)) length_eq
    rw [List.take_of_length_le (by omega), List.drop_left, scale]
    simp only [Nat.mul_comm _ 10, number_eq]

theorem readDate_padded {date : Date} (valid : date.isValid) (year_nonneg : 0 ≤ date.year)
    (year_le : date.year ≤ 9999) (month_lt : date.month < 10 ^ 2) (day_lt : date.day < 10 ^ 2)
    (rest : List Char) :
    readDate (yearText date.year ++ '-' :: (padded 2 date.month ++ '-' ::
      (padded 2 date.day ++ rest))) = .ok (date, rest) := by
  obtain ⟨year, month, day⟩ := date
  obtain ⟨number, rfl⟩ := Int.eq_ofNat_of_zero_le year_nonneg
  have fits : number < 10 ^ 4 := by
    simp only at year_le
    omega
  rw [yearText, if_pos ⟨year_nonneg, year_le⟩, Int.toNat_natCast]
  simp only [readDate, readDigits_padded (by decide : 0 < 4) fits,
    readDigits_padded (by decide : 0 < 2) month_lt, readDigits_padded (by decide : 0 < 2) day_lt,
    readMark, bind, Except.bind, decide_true, if_true]
  rw [if_pos valid]
  rfl

theorem readTime_padded {hour minute second millis : Nat} (hour_lt : hour < 24)
    (minute_lt : minute < 60) (second_lt : second < 61) (millis_lt : millis < 10 ^ 3)
    (rest : List Char) :
    readTime (padded 2 hour ++ ':' :: (padded 2 minute ++ ':' :: (padded 2 second ++ '.' ::
      (padded 3 millis ++ 'Z' :: rest)))) =
      .ok ((hour * 3600 + minute * 60 + (if second = 60 then 59 else second),
        millis * 1000000 + (if second = 60 then leapNanos else 0)), 'Z' :: rest) := by
  have hour_fits : hour < 10 ^ 2 := by omega
  have minute_fits : minute < 10 ^ 2 := by omega
  have second_fits : second < 10 ^ 2 := by omega
  have in_range : ¬ (24 ≤ hour ∨ 60 ≤ minute ∨ 61 ≤ second) := by omega
  simp only [readTime, readDigits_padded (by decide : 0 < 2) hour_fits,
    readDigits_padded (by decide : 0 < 2) minute_fits,
    readDigits_padded (by decide : 0 < 2) second_fits, readFraction_padded millis_lt,
    readMark, bind, Except.bind, decide_true, if_true]
  rw [if_neg in_range]
  rfl

/-! ### The whole text -/

/-- The second of the minute that is shown: 60 during a leap second. -/
def secondShown (instant : Instant) : Nat :=
  (instant.seconds % secondsPerDay).toNat % 60 + if leapNanos ≤ instant.nanos then 1 else 0

/-- The milliseconds that are shown. -/
def millisShown (instant : Instant) : Nat :=
  (if leapNanos ≤ instant.nanos then instant.nanos - leapNanos else instant.nanos) / 1000000

theorem write_eq (instant : Instant) :
    let date := Date.ofDayNumber (instant.seconds / secondsPerDay)
    let inDay := (instant.seconds % secondsPerDay).toNat
    instant.write = yearText date.year ++ '-' :: (padded 2 date.month ++ '-' ::
      (padded 2 date.day ++ 'T' :: (padded 2 (inDay / 3600) ++ ':' ::
        (padded 2 (inDay / 60 % 60) ++ ':' :: (padded 2 instant.secondShown ++ '.' ::
          (padded 3 instant.millisShown ++ ['Z'])))))) := by
  simp only [write, secondShown, millisShown, List.append_assoc, List.cons_append]

/-- What is cut off is not shown. -/
theorem text_toMillis (instant : Instant) : instant.toMillis.text = instant.text := by
  have leaping : (leapNanos ≤ instant.nanos / 1000000 * 1000000) =
      (leapNanos ≤ instant.nanos) := by
    rw [leapNanos, eq_iff_iff]
    omega
  have millis : instant.toMillis.millisShown = instant.millisShown := by
    simp only [millisShown, toMillis, leaping]
    split
    · rw [leapNanos]
      omega
    · omega
  have second : instant.toMillis.secondShown = instant.secondShown := by
    simp only [secondShown, toMillis, leaping]
  rw [text, text, write_eq, write_eq, millis, second]
  rfl

/-- The seconds and nanoseconds of a valid instant come back from what is shown. -/
theorem shown_spec {instant : Instant} (valid : instant.IsValid) :
    instant.secondShown < 61 ∧ instant.millisShown < 10 ^ 3 ∧
      (if instant.secondShown = 60 then 59 else instant.secondShown) =
        (instant.seconds % secondsPerDay).toNat % 60 ∧
      instant.millisShown * 1000000 + (if instant.secondShown = 60 then leapNanos else 0) =
        instant.toMillis.nanos := by
  obtain ⟨second, second_eq⟩ : ∃ second, (instant.seconds % secondsPerDay).toNat % 60 = second :=
    ⟨_, rfl⟩
  have in_minute : (second : Int) = instant.seconds % 60 := by
    rw [← second_eq, secondsPerDay]
    omega
  rw [IsValid, leapNanos] at valid
  simp only [secondShown, millisShown, toMillis, leapNanos, second_eq]
  by_cases leaping : 1000000000 ≤ instant.nanos
  · have last : second = 59 := by omega
    simp only [leaping, if_true, last]
    exact ⟨by decide, by omega, trivial, by omega⟩
  · have differs : second ≠ 60 := by omega
    simp only [leaping, if_false, Nat.add_zero, differs]
    exact ⟨by omega, by omega, trivial, trivial⟩

private theorem length_le_byteCount (characters : List Char) :
    characters.length ≤ byteCount characters := by
  induction characters with
  | nil => exact Nat.le_refl 0
  | cons character characters induction_step =>
      rw [byteCount] at induction_step ⊢
      rw [List.foldr_cons, List.length_cons]
      have := character.utf8Size_pos
      omega

/-- Years outside the four digits begin with a sign. -/
theorem yearText_of_signed {year : Int} (signed : ¬ (0 ≤ year ∧ year ≤ 9999)) :
    ∃ sign, (sign = '-' ∨ sign = '+') ∧ ∃ number, yearText year = sign :: padded 4 number := by
  rw [yearText, if_neg signed]
  split
  · exact ⟨'-', Or.inl rfl, _, rfl⟩
  · exact ⟨'+', Or.inr rfl, _, rfl⟩

/-- A year has at least four digits, and nothing blank before them. -/
theorem yearText_spec (year : Int) :
    4 ≤ (yearText year).length ∧
      ∃ first, (yearText year).head? = some first ∧ Text.isBlank first = false := by
  by_cases unsigned : 0 ≤ year ∧ year ≤ 9999
  · obtain ⟨first, head_eq, digit⟩ := head?_padded (by decide : 0 < 4) year.toNat
    rw [yearText, if_pos unsigned]
    exact ⟨le_length_padded 4 _, first, head_eq, Text.isBlank_of_isDigit digit⟩
  · obtain ⟨sign, is_sign, number, text_eq⟩ := yearText_of_signed unsigned
    have long := le_length_padded 4 number
    rw [text_eq, List.length_cons]
    refine ⟨by omega, sign, rfl, ?_⟩
    rcases is_sign with rfl | rfl <;> decide

/-- The text of an instant is read from its first character to its last. -/
theorem parse_text_eq (instant : Instant) : parse instant.text = read instant.write := by
  obtain ⟨-, first, head_eq, not_blank⟩ :=
    yearText_spec (Date.ofDayNumber (instant.seconds / secondsPerDay)).year
  have kept : Text.trimChars Text.isBlank instant.write = instant.write := by
    refine Text.trimChars_of_ends (?_ : _ = some first) (?_ : _ = some 'Z') not_blank (by decide)
    · rw [write_eq, List.head?_append, head_eq]
      rfl
    · rw [write_eq]
      simp [List.getLast?_append, List.getLast?_cons]
  rw [parse, text, String.toList_ofList, kept]

/-- The text of an instant is long enough to be read. -/
theorem long_write (instant : Instant) : ¬ byteCount instant.write < 19 := by
  obtain ⟨year_long, -⟩ :=
    yearText_spec (Date.ofDayNumber (instant.seconds / secondsPerDay)).year
  have long : 19 ≤ instant.write.length := by
    rw [write_eq]
    simp only [List.length_append, List.length_cons]
    have two_digits := le_length_padded 2
    have three_digits := le_length_padded 3 instant.millisShown
    have month := two_digits (Date.ofDayNumber (instant.seconds / secondsPerDay)).month
    have day := two_digits (Date.ofDayNumber (instant.seconds / secondsPerDay)).day
    have second := two_digits instant.secondShown
    omega
  exact Nat.not_lt.2 (Nat.le_trans long (length_le_byteCount _))

/-- A plain instant is read back from its text, cut to milliseconds. -/
theorem parse_text {instant : Instant} (plain : instant.IsPlain) :
    parse instant.text = .ok instant.toMillis := by
  have date_valid := Date.isValid_ofDayNumber (instant.seconds / secondsPerDay)
  have day_eq := Date.dayNumber_ofDayNumber (instant.seconds / secondsPerDay)
  obtain ⟨month_lt, day_lt⟩ := Date.small_of_isValid date_valid
  have hour_lt : (instant.seconds % secondsPerDay).toNat / 3600 < 24 := by
    rw [secondsPerDay]
    omega
  have minute_lt : (instant.seconds % secondsPerDay).toNat / 60 % 60 < 60 :=
    Nat.mod_lt _ (by decide)
  obtain ⟨second_lt, millis_lt, second_eq, nanos_eq⟩ := shown_spec plain.valid
  have seconds_eq : instant.seconds / secondsPerDay * secondsPerDay +
      (((instant.seconds % secondsPerDay).toNat / 3600 * 3600 +
        (instant.seconds % secondsPerDay).toNat / 60 % 60 * 60 +
        (instant.seconds % secondsPerDay).toNat % 60 : Nat) : Int) - 0 * 60 =
      instant.seconds := by
    rw [secondsPerDay]
    omega
  rw [parse_text_eq, read, if_neg (long_write instant), write_eq]
  simp only [bind, Except.bind, pure, Except.pure, readMark, readOffset,
    readDate_padded date_valid plain.year_nonneg plain.year_le month_lt day_lt,
    readTime_padded hour_lt minute_lt second_lt millis_lt, decide_true, Bool.true_or, if_true,
    true_or, day_eq, second_eq, nanos_eq, seconds_eq]
  rfl

/-- A sign before the year is not read. -/
theorem parse_text_of_signed {instant : Instant}
    (signed : ¬ (0 ≤ (Date.ofDayNumber (instant.seconds / secondsPerDay)).year ∧
      (Date.ofDayNumber (instant.seconds / secondsPerDay)).year ≤ 9999)) :
    parse instant.text = .error .badCharacter := by
  obtain ⟨sign, is_sign, number, text_eq⟩ := yearText_of_signed signed
  have no_digit : ¬ sign.isDigit := by rcases is_sign with rfl | rfl <;> decide
  rw [parse_text_eq, read, if_neg (long_write instant), write_eq]
  simp only [text_eq, List.cons_append, readDate, readDigits, if_neg no_digit]
  rfl

/-! ### What is read is valid -/

theorem digits_lt {digits : List Char} (all_digits : ∀ digit ∈ digits, digit.isDigit)
    (total : Nat) :
    digits.foldl (fun total digit => total * 10 + (digit.toNat - '0'.toNat)) total <
      (total + 1) * 10 ^ digits.length := by
  induction digits generalizing total with
  | nil => simp
  | cons digit digits induction_step =>
      rw [List.forall_mem_cons] at all_digits
      have small : digit.toNat - '0'.toNat < 10 := by
        have high := all_digits.1
        simp only [Char.isDigit, Bool.and_eq_true, decide_eq_true_eq] at high
        have : digit.toNat ≤ 57 := high.2
        have : '0'.toNat = 48 := rfl
        omega
      rw [List.foldl_cons]
      apply Nat.lt_of_lt_of_le (induction_step all_digits.2 _)
      rw [List.length_cons, Nat.pow_succ, Nat.mul_comm (10 ^ _), ← Nat.mul_assoc]
      exact Nat.mul_le_mul_right _ (by omega)

/-- Up to nine digits, filled up with zeros, are less than a second. -/
private theorem filled_lt {digits : List Char} (all_digits : ∀ digit ∈ digits, digit.isDigit)
    (short : digits.length ≤ 9) :
    digits.foldl (fun total digit => total * 10 + (digit.toNat - '0'.toNat)) 0 *
      Nat.pow 10 (9 - digits.length) < leapNanos := by
  have below := digits_lt all_digits 0
  rw [Nat.zero_add, Nat.one_mul] at below
  calc
    _ < 10 ^ digits.length * 10 ^ (9 - digits.length) :=
      Nat.mul_lt_mul_of_pos_right below (Nat.pow_pos (by decide))
    _ = leapNanos := by
      rw [← Nat.pow_add, Nat.add_sub_cancel' short]
      rfl

private theorem readFraction_lt {characters rest : List Char} {nanos : Nat}
    (read_eq : readFraction characters = .ok (nanos, rest)) : nanos < leapNanos := by
  unfold readFraction at read_eq
  split at read_eq
  · simp only at read_eq
    split at read_eq
    · cases read_eq
    · cases read_eq
    · cases read_eq
      refine filled_lt (fun digit member => ?_) (List.length_take_le _ _)
      exact List.all_eq_true.1 List.all_takeWhile digit (List.mem_of_mem_take member)
  · cases read_eq
    decide

/-- A time of day has a leap second only at the end of a minute. -/
theorem readTime_valid {characters rest : List Char} {ofDay nanos : Nat}
    (read_eq : readTime characters = .ok ((ofDay, nanos), rest)) :
    nanos < leapNanos ∨ (nanos < 2 * leapNanos ∧ ofDay % 60 = 59) := by
  obtain ⟨hour, -, read_eq⟩ := exists_of_bind read_eq
  obtain ⟨_, -, read_eq⟩ := exists_of_bind read_eq
  obtain ⟨minute, -, read_eq⟩ := exists_of_bind read_eq
  obtain ⟨_, -, read_eq⟩ := exists_of_bind read_eq
  obtain ⟨second, -, read_eq⟩ := exists_of_bind read_eq
  obtain ⟨⟨fraction, _⟩, fraction_eq, read_eq⟩ := exists_of_bind read_eq
  have below := readFraction_lt fraction_eq
  simp only at read_eq
  split at read_eq
  · cases read_eq
  cases read_eq
  by_cases leaping : second.1 = 60
  · simp only [leaping, if_true]
    exact Or.inr ⟨by omega, by omega⟩
  · simp only [leaping, if_false]
    exact Or.inl below

/-- Every instant that is read is valid. -/
theorem isValid_of_parse {text : String} {instant : Instant}
    (parsed : parse text = .ok instant) : instant.IsValid := by
  rw [parse, read] at parsed
  split at parsed
  · cases parsed
  obtain ⟨date, -, parsed⟩ := exists_of_bind parsed
  obtain ⟨_, -, parsed⟩ := exists_of_bind parsed
  obtain ⟨⟨⟨ofDay, nanos⟩, _⟩, time_eq, parsed⟩ := exists_of_bind parsed
  obtain ⟨⟨offset, _⟩, -, parsed⟩ := exists_of_bind parsed
  simp only at parsed
  split at parsed
  · cases parsed
  split at parsed
  · cases parsed
  cases parsed
  refine (readTime_valid time_eq).imp id fun ⟨below, last⟩ => ⟨below, ?_⟩
  simp only [secondsPerDay]
  omega

end Instant

end VesselHub
