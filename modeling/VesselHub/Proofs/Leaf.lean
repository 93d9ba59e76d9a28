/-
Module: VesselHub.Proofs.Leaf
Purpose: What is sent of a leaf is taken back: as the leaf, with as much of its time as was sent, if
  the year of that time has four digits in UTC. Otherwise whoever is sent it skips it.
Main exports: Leaf.toMillis, Leaf.decode_encode, Leaf.mergeChild_encode, Leaf.round_trip,
  Instant.IsTakenBack, Instant.IsSkipped, Instant.read_again_iff
-/
import VesselHub.Model.Apply
import VesselHub.Proofs.Json.Record
import VesselHub.Proofs.Time.Civil
import VesselHub.Tree.Merge

namespace VesselHub

namespace Leaf

/-- The leaf with as much of its time as is sent. -/
def toMillis (leaf : Leaf) : Leaf :=
  { leaf with timestamp := leaf.timestamp.map Instant.toMillis }

theorem encode_toMillis (leaf : Leaf) : leaf.toMillis.encode = leaf.encode := by
  have shown : leaf.toMillis.timestampText = leaf.timestampText := by
    rw [timestampText, timestampText, toMillis, Option.map_map]
    exact congrArg leaf.timestamp.map (funext Instant.text_toMillis)
  rw [encode, encode, shown]
  rfl

/-- A leaf is read back from its members as far as its time is, whatever its value looks like. -/
theorem exists_members (leaf : Leaf) :
    ∃ members, leaf.encode = .object members ∧ Entries.contains members "value" = true ∧
      decode members = (decodeTimestamp (leaf.timestampText.map .string)).map fun timestamp =>
        { leaf with timestamp } := by
  refine ⟨Json.present [some ("value", leaf.value),
    Json.optionalMember "timestamp" (leaf.timestampText.map .string),
    Json.optionalMember "source" (leaf.source.map .string)], rfl, rfl, ?_⟩
  have source : decodeSource (leaf.source.map .string) = leaf.source := by
    cases leaf.source <;> rfl
  simp [decode, source]

/-- A time whose text is read is read as what was sent of it. -/
theorem decodeTimestamp_text {leaf : Leaf} (text_read : ∀ instant, leaf.timestamp = some instant →
      Instant.parse instant.text = .ok instant.toMillis) :
    decodeTimestamp (leaf.timestampText.map .string) = .ok leaf.toMillis.timestamp := by
  rw [timestampText, toMillis]
  cases time : leaf.timestamp with
  | none => rfl
  | some instant => simp [decodeTimestamp, text_read instant time]

/-- A leaf is read back as it was sent if the year of its time has four digits. -/
theorem decode_encode {leaf : Leaf}
    (plain : ∀ instant, leaf.timestamp = some instant → instant.IsPlain) :
    ∃ members, leaf.encode = .object members ∧ decode members = .ok leaf.toMillis := by
  obtain ⟨members, encoded, -, decoded⟩ := leaf.exists_members
  rw [decodeTimestamp_text fun instant timed => Instant.parse_text (plain instant timed)] at decoded
  exact ⟨members, encoded, decoded⟩

/-- A document puts a leaf in the place of what was there if its time is read. -/
theorem mergeChild_encode (leaf : Leaf) (tree : Tree) (key : String) :
    tree.mergeChild key leaf.encode =
      match decodeTimestamp (leaf.timestampText.map .string) with
      | .ok timestamp => tree.putLeaf key { leaf with timestamp }
      | .error _ => tree := by
  obtain ⟨members, encoded, has_value, decoded⟩ := leaf.exists_members
  rw [encoded, Tree.mergeChild, if_pos has_value, decoded]
  cases decodeTimestamp (leaf.timestampText.map .string) <;> rfl

theorem buildItem_encode (leaf : Leaf) :
    Tree.buildItem leaf.encode =
      match decodeTimestamp (leaf.timestampText.map .string) with
      | .ok timestamp => some (.leaf { leaf with timestamp })
      | .error _ => none := by
  obtain ⟨members, encoded, has_value, decoded⟩ := leaf.exists_members
  rw [encoded, Tree.buildItem, if_pos has_value, decoded]
  cases decodeTimestamp (leaf.timestampText.map .string) <;> rfl

/-- Leaves with any value, with and without source and time, are read back from what is sent of
them, cut to milliseconds; and so is the time that any text names, at whatever distance from UTC it
does so. The year of the time has four digits in UTC. -/
theorem round_trip :
    (∀ leaf : Leaf, (∀ instant, leaf.timestamp = some instant → instant.IsPlain) →
      ∃ members, leaf.encode = .object members ∧ decode members = .ok leaf.toMillis) ∧
    ∀ (raw : String) (instant : Instant), Instant.parse raw = .ok instant →
      0 ≤ (Date.ofDayNumber (instant.seconds / Instant.secondsPerDay)).year →
      (Date.ofDayNumber (instant.seconds / Instant.secondsPerDay)).year ≤ 9999 →
      Instant.parse instant.text = .ok instant.toMillis := by
  constructor
  · intro leaf plain
    exact decode_encode plain
  · intro raw instant accepted year_nonneg year_le
    exact Instant.parse_text ⟨Instant.isValid_of_parse accepted, year_nonneg, year_le⟩

/-- A leap second at the end of the year, named by a text from the new year further east. -/
theorem leapSecond_round_trip :
    Instant.parse "2017-01-01T04:29:60.999999999+04:30" = .ok ⟨1483228799, 1999999999⟩ ∧
      Instant.text ⟨1483228799, 1999999999⟩ = "2016-12-31T23:59:60.999Z" ∧
      Instant.parse (Instant.text ⟨1483228799, 1999999999⟩) = .ok ⟨1483228799, 1999000000⟩ ∧
      ∃ members, encode ⟨.object [("value", .null)], some "gps", some ⟨1483228799, 1999999999⟩⟩ =
        .object members ∧ decode members =
          .ok ⟨.object [("value", .null)], some "gps", some ⟨1483228799, 1999000000⟩⟩ := by
  have said : Civil.parse "2017-01-01T04:29:60.999999999+04:30" =
      .ok ⟨⟨2017, 1, 1⟩, 16199, 1999999999, 270⟩ := by rfl
  have accepted : Instant.parse "2017-01-01T04:29:60.999999999+04:30" =
      .ok ⟨1483228799, 1999999999⟩ := by
    rw [Instant.parse_eq, said]
    exact congrArg Except.ok (by decide)
  have shown : Instant.toMillis ⟨1483228799, 1999999999⟩ = ⟨1483228799, 1999000000⟩ := by decide
  have plain : Instant.IsPlain ⟨1483228799, 1999999999⟩ :=
    ⟨Instant.isValid_of_parse accepted, by decide, by decide⟩
  have text_read := round_trip.2 _ _ accepted plain.year_nonneg plain.year_le
  have leaf_read := round_trip.1
    ⟨.object [("value", .null)], some "gps", some ⟨1483228799, 1999999999⟩⟩
    fun _ timed => Option.some.inj timed ▸ plain
  rw [toMillis, Option.map_some, shown] at leaf_read
  exact ⟨accepted, by decide +kernel, shown ▸ text_read, leaf_read⟩

end Leaf

/-! ### Times that are sent back -/

namespace Instant

/-- A time that is taken back as it was sent: its text is read, a leaf with it replaces what a
document finds in its place, and a value with it is accepted. -/
structure IsTakenBack (instant : Instant) : Prop where
  text_read : parse instant.text = .ok instant.toMillis
  leaf_merged : ∀ (held : Leaf) (tree : Tree) (key : String), held.timestamp = some instant →
    tree.mergeChild key held.encode = tree.putLeaf key held.toMillis
  item_built : ∀ held : Leaf, held.timestamp = some instant →
    Tree.buildItem held.encode = some (.leaf held.toMillis)
  value_accepted : ∀ (batch : Batch) (item : PathValue) (key : String),
    item.timestamp.or batch.timestamp = some instant.text →
    (Path.ofText item.path).last? = some key →
      batch.accept item = .ok {
        branch := (Path.ofText item.path).parent.raw
        key
        value := item.value
        stamp := some instant.toMillis }

/-- A time that is not taken back: its text is not read, and leaves and values with it are
skipped. -/
structure IsSkipped (instant : Instant) : Prop where
  text_refused : parse instant.text = .error .badCharacter
  leaf_skipped : ∀ (held : Leaf) (tree : Tree) (key : String), held.timestamp = some instant →
    tree.mergeChild key held.encode = tree
  item_skipped : ∀ held : Leaf, held.timestamp = some instant → Tree.buildItem held.encode = none
  value_refused : ∀ (batch : Batch) (item : PathValue) (key : String),
    item.timestamp.or batch.timestamp = some instant.text →
    (Path.ofText item.path).last? = some key →
      batch.accept item = .error (.badTimestamp .badCharacter)

variable {instant : Instant}

theorem IsPlain.isTakenBack (plain : instant.IsPlain) : instant.IsTakenBack := by
  have text_read := parse_text plain
  have time_read : ∀ held : Leaf, held.timestamp = some instant →
      Leaf.decodeTimestamp (held.timestampText.map .string) = .ok held.toMillis.timestamp := by
    intro held timed
    refine Leaf.decodeTimestamp_text fun other timed_other => ?_
    rw [timed] at timed_other
    exact Option.some.inj timed_other ▸ text_read
  refine ⟨text_read, fun held tree key timed => ?_, fun held timed => ?_, ?_⟩
  · rw [held.mergeChild_encode, time_read held timed]
    rfl
  · rw [held.buildItem_encode, time_read held timed]
    rfl
  · intro batch item key timed found
    simp only [Batch.accept, found, timed, text_read]

/-- Outside the years of four digits nothing is taken back. -/
theorem isSkipped_of_signed
    (signed : ¬ (0 ≤ (Date.ofDayNumber (instant.seconds / secondsPerDay)).year ∧
      (Date.ofDayNumber (instant.seconds / secondsPerDay)).year ≤ 9999)) : instant.IsSkipped := by
  have text_refused := parse_text_of_signed signed
  have time_refused : ∀ held : Leaf, held.timestamp = some instant →
      Leaf.decodeTimestamp (held.timestampText.map .string) =
        .error (.badTimestamp instant.text .badCharacter) := by
    intro held timed
    simp only [Leaf.timestampText, timed, Option.map_some, Leaf.decodeTimestamp, text_refused]
  refine ⟨text_refused, fun held tree key timed => ?_, fun held timed => ?_, ?_⟩
  · rw [held.mergeChild_encode, time_refused held timed]
  · rw [held.buildItem_encode, time_refused held timed]
  · intro batch item key timed found
    simp only [Batch.accept, found, timed, text_refused]

/-- The time of a text that is read is read again from what is sent of it, and taken back wherever
it is sent, if and only if the distance from UTC does not take it out of the years of four
digits. -/
theorem read_again_iff {raw : String} (accepted : parse raw = .ok instant) :
    ∃ civil, Civil.parse raw = .ok civil ∧ civil.instant = instant ∧
      ((∃ again, parse instant.text = .ok again) ↔ ¬ civil.LeavesYears) ∧
      (¬ civil.LeavesYears → instant.IsTakenBack) ∧ (civil.LeavesYears → instant.IsSkipped) := by
  obtain ⟨civil, parsed, instant_eq⟩ : ∃ civil, Civil.parse raw = .ok civil ∧
      civil.instant = instant := by
    rw [parse_eq] at accepted
    cases parsed : Civil.parse raw with
    | error reason =>
        rw [parsed] at accepted
        cases accepted
    | ok civil =>
        rw [parsed] at accepted
        exact ⟨civil, rfl, Except.ok.inj accepted⟩
  have plain_iff : instant.IsPlain ↔ ¬ civil.LeavesYears := instant_eq ▸ Civil.isPlain_iff parsed
  have taken_back : ¬ civil.LeavesYears → instant.IsTakenBack :=
    fun stays => (plain_iff.2 stays).isTakenBack
  have skipped : civil.LeavesYears → instant.IsSkipped := by
    intro leaves
    apply isSkipped_of_signed
    intro four_digits
    exact plain_iff.1 ⟨isValid_of_parse accepted, four_digits.1, four_digits.2⟩ leaves
  refine ⟨civil, parsed, instant_eq, ⟨?_, ?_⟩, taken_back, skipped⟩
  · rintro ⟨again, read_eq⟩ leaves
    rw [(skipped leaves).text_refused] at read_eq
    cases read_eq
  · exact fun stays => ⟨_, (taken_back stays).text_read⟩

/-- The last evening of the last year of four digits, further east. -/
theorem lastEvening_taken_back :
    parse "9999-12-31T23:59:30+01:00" = .ok ⟨253402297170, 0⟩ ∧
      IsTakenBack ⟨253402297170, 0⟩ := by
  have said : Civil.parse "9999-12-31T23:59:30+01:00" =
      .ok ⟨⟨9999, 12, 31⟩, 86370, 0, 60⟩ := by rfl
  have accepted : parse "9999-12-31T23:59:30+01:00" = .ok ⟨253402297170, 0⟩ := by
    rw [parse_eq, said]
    exact congrArg Except.ok (by decide)
  obtain ⟨civil, parsed, -, -, taken_back, -⟩ := read_again_iff accepted
  cases parsed.symm.trans said
  exact ⟨accepted, taken_back (by decide)⟩

/-- The same evening further west is in the year after that in UTC. -/
theorem lastEvening_not_read_again :
    parse "9999-12-31T23:59:30-01:00" = .ok ⟨253402304370, 0⟩ ∧
      text ⟨253402304370, 0⟩ = "+10000-01-01T00:59:30.000Z" ∧
      ¬ ∃ again, parse (text ⟨253402304370, 0⟩) = .ok again := by
  have said : Civil.parse "9999-12-31T23:59:30-01:00" =
      .ok ⟨⟨9999, 12, 31⟩, 86370, 0, -60⟩ := by rfl
  have refused : parse (text ⟨253402304370, 0⟩) = .error .badCharacter :=
    parse_text_of_signed (by decide)
  refine ⟨?_, by decide +kernel, ?_⟩
  · rw [parse_eq, said]
    exact congrArg Except.ok (by decide)
  · rintro ⟨again, read_eq⟩
    cases refused.symm.trans read_eq

end Instant

end VesselHub
