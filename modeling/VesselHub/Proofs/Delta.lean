/-
Module: VesselHub.Proofs.Delta
Purpose: A delta that is written is read back as it was, and the values of a delta that is read
  have no repeated keys if the message has none.
Main exports: Source.decode_encode, PathValue.decode_encode, Update.decode_encode,
  Delta.decode_encode, Json.Yields, Delta.decode_distinct
-/
import VesselHub.Delta
import VesselHub.Proofs.Json.Record
import VesselHub.Proofs.Json.Reordered
import VesselHub.Proofs.Time.Instant

namespace VesselHub

open Json

theorem Source.decode_encode (source : Source) : Source.decode source.encode = .ok source := by
  obtain ⟨row, row_eq, device, label, kind, timestamp, address, group, talker, sentence⟩ :
      ∃ row, Source.shape.row source.encode = .ok row ∧
        Entries.get? row "device" = source.device.map .string ∧
        Entries.get? row "label" = source.label.map .string ∧
        Entries.get? row "type" = source.kind.map .string ∧
        Entries.get? row "timestamp" = source.timestamp.map .string ∧
        Entries.get? row "src" = source.address.map .string ∧
        Entries.get? row "pgn" = source.group.map .string ∧
        Entries.get? row "talker" = source.talker.map .string ∧
        Entries.get? row "sentence" = source.sentence.map .string := by
    refine ⟨_, Shape.row_objectOf ?_ (by simp [Source.shape, Field.of]), ?_⟩
    · simp only [List.forall_mem_cons, List.not_mem_nil, false_implies, implies_true, and_true]
      exact ⟨Shape.fits_text rfl, Shape.fits_text rfl, Shape.fits_text rfl, Shape.fits_text rfl,
        Shape.fits_textOrNumber rfl, Shape.fits_textOrNumber rfl, Shape.fits_text rfl,
        Shape.fits_text rfl⟩
    · simp
  rw [Source.decode, row_eq]
  simp only [bind, Except.bind, Shape.value?_text device, Shape.value?_text label,
    Shape.value?_text kind, Shape.value?_text timestamp, Shape.value?_textOrNumber address,
    Shape.value?_textOrNumber group, Shape.value?_text talker, Shape.value?_text sentence]
  rfl

theorem Source.encode_ne_null (source : Source) : source.encode ≠ .null :=
  nofun

theorem PathValue.decode_encode (item : PathValue) : PathValue.decode item.encode = .ok item := by
  obtain ⟨row, row_eq, path, value, timestamp⟩ :
      ∃ row, PathValue.shape.row item.encode = .ok row ∧
        Entries.get? row "path" = some (.string item.path) ∧
        Entries.get? row "value" = some item.value ∧
        Entries.get? row "timestamp" = item.timestamp.map .string := by
    refine ⟨_, Shape.row_objectOf ?_ (by simp [PathValue.shape, Field.of, Entries.contains]), ?_⟩
    · simp only [List.forall_mem_cons, List.not_mem_nil, false_implies, implies_true, and_true]
      exact ⟨Shape.fits_some rfl rfl, Shape.fits_some rfl rfl, Shape.fits_text rfl⟩
    · simp
  rw [PathValue.decode, row_eq]
  simp only [bind, Except.bind, Shape.value_of_get? path, Shape.value_of_get? value,
    Shape.value?_text timestamp]
  rfl

theorem Update.decode_encode (update : Update) : Update.decode update.encode = .ok update := by
  have values_read := list_map fun item (_ : item ∈ update.values) => PathValue.decode_encode item
  obtain ⟨row, row_eq, reference, source, timestamp, values⟩ :
      ∃ row, Update.shape.row update.encode = .ok row ∧
        Entries.get? row "$source" = update.sourceRef.map .string ∧
        Entries.get? row "source" = update.source.map Source.encode ∧
        Entries.get? row "timestamp" = update.timestamp.map .string ∧
        Entries.get? row "values" = some (.array (update.values.map PathValue.encode)) := by
    refine ⟨_, Shape.row_objectOf ?_ (by simp [Update.shape, Field.of, Entries.contains]), ?_⟩
    · simp only [List.forall_mem_cons, List.not_mem_nil, false_implies, implies_true, and_true]
      exact ⟨Shape.fits_text rfl,
        Shape.fits_nullable rfl Source.decode_encode Source.encode_ne_null, Shape.fits_text rfl,
        Shape.fits_some rfl (Field.check_of values_read)⟩
    · simp
  rw [Update.decode, row_eq]
  simp only [bind, Except.bind, Shape.value?_text reference, Shape.value?_text timestamp,
    Shape.value?_of_get? source Source.decode_encode Source.encode_ne_null,
    Shape.value_of_get? values, values_read]
  rfl

namespace Delta

/-- A list that is left out if it is empty. -/
theorem get?_present_list (key name : String) (items : List Json)
    (members : List (Option (String × Json))) :
    Entries.get? (present (listMember key items :: members)) name =
      if key = name ∧ items ≠ [] then some (.array items)
      else Entries.get? (present members) name := by
  cases items with
  | nil => simp [listMember, present]
  | cons item items => simp [listMember, present, Entries.get?]

private theorem fits_list {α : Type} {shape : Shape} {key : String} {presence : Presence}
    {read : Decoder α} {write : α → Json} {items : List α}
    (found : shape.fields.find? (·.name == key) = some (.of key presence (Decoder.list read)))
    (round_trip : ∀ item, read (write item) = .ok item) :
    shape.Fits (listMember key (items.map write)) := by
  cases items with
  | nil => exact fun _ _ absent => by cases absent
  | cons item items =>
      exact Shape.fits_some found (Field.check_of (list_map fun other _ => round_trip other))

private theorem items_of_get? {α : Type} {row : List (String × Json)} {key : String}
    {read : Decoder α} {write : α → Json} {items : List α}
    (at_key : Entries.get? row key =
      if items.map write ≠ [] then some (.array (items.map write)) else none)
    (round_trip : ∀ item, read (write item) = .ok item) :
    Shape.items row key read = .ok items := by
  rw [Shape.items, at_key]
  cases items with
  | nil => rfl
  | cons item items =>
      rw [if_pos (by simp)]
      exact list_map fun other _ => round_trip other

theorem decode_encode (delta : Delta) : Delta.decode delta.encode = .ok delta := by
  obtain ⟨row, row_eq, context, source, values, updates⟩ :
      ∃ row, Delta.shape.row delta.encode = .ok row ∧
        Entries.get? row "context" = some (.string delta.context) ∧
        Entries.get? row "source" = delta.source.map Source.encode ∧
        Entries.get? row "values" =
          (if delta.values.map PathValue.encode ≠ [] then
            some (.array (delta.values.map PathValue.encode)) else none) ∧
        Entries.get? row "updates" =
          (if delta.updates.map Update.encode ≠ [] then
            some (.array (delta.updates.map Update.encode)) else none) := by
    refine ⟨_, Shape.row_objectOf ?_ (by simp [Delta.shape, Field.of, Entries.contains]), ?_⟩
    · simp only [List.forall_mem_cons, List.not_mem_nil, false_implies, implies_true, and_true]
      exact ⟨Shape.fits_some rfl rfl,
        Shape.fits_nullable rfl Source.decode_encode Source.encode_ne_null,
        fits_list rfl PathValue.decode_encode, fits_list rfl Update.decode_encode⟩
    · simp [get?_present_list]
  rw [Delta.decode, row_eq]
  simp only [bind, Except.bind, Shape.value_of_get? context,
    Shape.value?_of_get? source Source.decode_encode Source.encode_ne_null,
    items_of_get? values PathValue.decode_encode, items_of_get? updates Update.decode_encode]
  rfl

end Delta

/-! ### Values without repeated keys -/

/-- What a reader makes of values without repeated keys has a property. -/
def Json.Yields {Held : Type} (read : Decoder Held) (property : Held → Prop) : Prop :=
  ∀ {found : Json} {held : Held}, found.HasDistinctKeys → read found = .ok held → property held

theorem Json.yields_list {Held : Type} {read : Decoder Held} {property : Held → Prop}
    (each : Yields read property) :
    Yields (Decoder.list read) fun items => ∀ item ∈ items, property item := by
  intro found held distinct read_eq
  cases found with
  | array items =>
      rw [Decoder.list] at read_eq
      induction items generalizing held with
      | nil =>
          cases read_eq
          exact List.forall_mem_nil _
      | cons item items induction_step =>
          rw [List.mapM_cons] at read_eq
          obtain ⟨first, first_eq, read_eq⟩ := exists_of_bind read_eq
          obtain ⟨others, others_eq, read_eq⟩ := exists_of_bind read_eq
          cases read_eq
          exact List.forall_mem_cons.2 ⟨each distinct.1 first_eq,
            induction_step distinct.2 others_eq⟩
  | _ => cases read_eq

namespace Json.Shape

variable {shape : Shape} {row : List (String × Json)}

private theorem distinct_of_nameItems {fields : List Field} {items : List Json}
    (distinct : ItemsHaveDistinctKeys items) (row_eq : shape.nameItems fields items = .ok row) :
    ∀ member ∈ row, member.2.HasDistinctKeys := by
  induction fields generalizing items row with
  | nil =>
      cases row_eq
      exact nofun
  | cons field fields induction_step =>
      cases items with
      | nil =>
          rw [nameItems] at row_eq
          split at row_eq
          · exact induction_step distinct row_eq
          · cases row_eq
      | cons item items =>
          rw [nameItems] at row_eq
          obtain ⟨_, -, row_eq⟩ := exists_of_bind row_eq
          obtain ⟨named, named_eq, row_eq⟩ := exists_of_bind row_eq
          cases row_eq
          exact List.forall_mem_cons.2 ⟨distinct.1, induction_step distinct.2 named_eq⟩

/-- The values of a record have no repeated keys if the whole has none. -/
theorem distinct_of_row {found : Json} (distinct : found.HasDistinctKeys)
    (row_eq : shape.row found = .ok row) : ∀ member ∈ row, member.2.HasDistinctKeys := by
  cases found with
  | object members =>
      obtain ⟨_, -, row_eq⟩ := exists_of_bind row_eq
      obtain ⟨_, -, row_eq⟩ := exists_of_bind row_eq
      cases row_eq
      exact membersHaveDistinctKeys_iff.1 distinct.2
  | array items =>
      obtain ⟨named, named_eq, row_eq⟩ := exists_of_bind row_eq
      dsimp only at row_eq
      split at row_eq
      · cases row_eq
      · cases row_eq
        exact distinct_of_nameItems distinct named_eq
  | _ => cases row_eq

/-- A field that was read from a row. -/
theorem of_value {Held : Type} {read : Decoder Held} {property : Held → Prop} {name : String}
    {held : Held} (yields : Yields read property)
    (distinct : ∀ member ∈ row, member.2.HasDistinctKeys)
    (read_eq : value row name read = .ok held) : property held := by
  rw [value] at read_eq
  cases found : Entries.get? row name with
  | none =>
      rw [found] at read_eq
      cases read_eq
  | some value =>
      rw [found] at read_eq
      exact yields (distinct _ (Entries.mem_of_get? found)) read_eq

/-- A list that was read from a row, or left out. -/
theorem of_items {Held : Type} {read : Decoder Held} {property : Held → Prop} {name : String}
    {held : List Held} (yields : Yields read property)
    (distinct : ∀ member ∈ row, member.2.HasDistinctKeys)
    (read_eq : items row name read = .ok held) : ∀ item ∈ held, property item := by
  rw [items] at read_eq
  cases found : Entries.get? row name with
  | none =>
      rw [found] at read_eq
      cases read_eq
      exact nofun
  | some value =>
      rw [found] at read_eq
      exact yields_list yields (distinct _ (Entries.mem_of_get? found)) read_eq

end Json.Shape

theorem PathValue.decode_distinct :
    Yields PathValue.decode fun item => item.value.HasDistinctKeys := by
  intro found item distinct read_eq
  obtain ⟨row, row_eq, read_eq⟩ := exists_of_bind read_eq
  obtain ⟨path, -, read_eq⟩ := exists_of_bind read_eq
  obtain ⟨value, value_eq, read_eq⟩ := exists_of_bind read_eq
  obtain ⟨timestamp, -, read_eq⟩ := exists_of_bind read_eq
  cases read_eq
  have any_distinct : Yields Decoder.any Json.HasDistinctKeys := by
    intro found held distinct read_eq
    cases read_eq
    exact distinct
  exact Shape.of_value any_distinct (Shape.distinct_of_row distinct row_eq) value_eq

theorem Update.decode_distinct :
    Yields Update.decode fun update => ∀ item ∈ update.values, item.value.HasDistinctKeys := by
  intro found update distinct read_eq
  obtain ⟨row, row_eq, read_eq⟩ := exists_of_bind read_eq
  obtain ⟨reference, -, read_eq⟩ := exists_of_bind read_eq
  obtain ⟨source, -, read_eq⟩ := exists_of_bind read_eq
  obtain ⟨timestamp, -, read_eq⟩ := exists_of_bind read_eq
  obtain ⟨values, values_eq, read_eq⟩ := exists_of_bind read_eq
  cases read_eq
  exact Shape.of_value (yields_list PathValue.decode_distinct)
    (Shape.distinct_of_row distinct row_eq) values_eq

/-- The values of a delta that is read from a message without repeated keys have none. -/
theorem Delta.decode_distinct : Yields Delta.decode fun delta =>
    (∀ item ∈ delta.values, item.value.HasDistinctKeys) ∧
      ∀ update ∈ delta.updates, ∀ item ∈ update.values, item.value.HasDistinctKeys := by
  intro found delta distinct read_eq
  obtain ⟨row, row_eq, read_eq⟩ := exists_of_bind read_eq
  obtain ⟨context, -, read_eq⟩ := exists_of_bind read_eq
  obtain ⟨source, -, read_eq⟩ := exists_of_bind read_eq
  obtain ⟨values, values_eq, read_eq⟩ := exists_of_bind read_eq
  obtain ⟨updates, updates_eq, read_eq⟩ := exists_of_bind read_eq
  cases read_eq
  have row_distinct := Shape.distinct_of_row distinct row_eq
  exact ⟨Shape.of_items PathValue.decode_distinct row_distinct values_eq,
    Shape.of_items Update.decode_distinct row_distinct updates_eq⟩

end VesselHub
