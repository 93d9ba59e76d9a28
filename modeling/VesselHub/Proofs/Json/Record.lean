/-
Module: VesselHub.Proofs.Json.Record
Purpose: Reading back records that were written member by member. What has to be shown of a record
  is that each member fits its field and that no required field is left out; where one is, the
  record is refused.
Main exports: Json.Shape.Fits, Json.Shape.row_objectOf, Json.Shape.row_of_missing,
  Json.Shape.value_of_get?, Json.Shape.value?_of_get?
-/
import VesselHub.Json.Decode

namespace VesselHub.Json

/-- The members that are written, in order. -/
def present (members : List (Option (String × Json))) : List (String × Json) :=
  members.filterMap id

@[simp] theorem get?_present_nil (name : String) : Entries.get? (present []) name = none := rfl

@[simp] theorem get?_present_some (key name : String) (value : Json)
    (members : List (Option (String × Json))) :
    Entries.get? (present (some (key, value) :: members)) name =
      if key = name then some value else Entries.get? (present members) name := rfl

@[simp] theorem get?_present_optional (key name : String) (value : Option Json)
    (members : List (Option (String × Json))) :
    Entries.get? (present (optionalMember key value :: members)) name =
      if key = name then value.or (Entries.get? (present members) name)
      else Entries.get? (present members) name := by
  cases value with
  | none => simp [optionalMember, present]
  | some value => simp [optionalMember, present, Entries.get?]

namespace Shape

variable {shape : Shape}

/-- A member fits the field of its name, if there is one. -/
def Fits (shape : Shape) (member : Option (String × Json)) : Prop :=
  ∀ key value, member = some (key, value) →
    ∀ field, shape.fields.find? (·.name == key) = some field → field.check value = .ok ()

theorem fits_some {key : String} {value : Json} {field : Field}
    (found : shape.fields.find? (·.name == key) = some field)
    (checks : field.check value = .ok ()) : shape.Fits (some (key, value)) := by
  rintro _ _ ⟨⟩ other other_found
  rw [found, Option.some.injEq] at other_found
  rw [← other_found, checks]

theorem fits_optional {key : String} {value : Option Json} {field : Field}
    (found : shape.fields.find? (·.name == key) = some field)
    (checks : ∀ written, value = some written → field.check written = .ok ()) :
    shape.Fits (optionalMember key value) := by
  cases value with
  | none => exact fun _ _ absent => by cases absent
  | some written => exact fits_some found (checks written rfl)

private theorem checkMembers_of_fits {members : List (Option (String × Json))}
    (fits : ∀ member ∈ members, shape.Fits member) :
    shape.checkMembers (present members) = .ok () := by
  induction members with
  | nil => rfl
  | cons member members induction_step =>
      have others := induction_step fun other later => fits other (List.mem_cons_of_mem _ later)
      cases member with
      | none => exact others
      | some member =>
          obtain ⟨key, value⟩ := member
          show shape.checkMembers ((key, value) :: present members) = .ok ()
          rw [checkMembers]
          cases found : shape.fields.find? (·.name == key) with
          | none => exact others
          | some field =>
              have checks := fits _ List.mem_cons_self key value rfl field found
              simp only [checks]
              exact others

private theorem checkPresence_of_contains {members : List (String × Json)} {fields : List Field}
    (complete : ∀ field ∈ fields, field.presence = .required →
      Entries.contains members field.name) : checkPresence members fields = .ok () := by
  induction fields with
  | nil => rfl
  | cons field fields induction_step =>
      rw [checkPresence, if_neg]
      · exact induction_step fun other later => complete other (List.mem_cons_of_mem _ later)
      · rintro ⟨required, missing⟩
        exact missing (complete field List.mem_cons_self required)

/-- A record whose members fit is read as its members. -/
theorem row_objectOf {members : List (Option (String × Json))}
    (fits : ∀ member ∈ members, shape.Fits member)
    (complete : ∀ field ∈ shape.fields, field.presence = .required →
      Entries.contains (present members) field.name) :
    shape.row (objectOf members) = .ok (present members) := by
  show (do
    shape.checkMembers (present members)
    checkPresence (present members) shape.fields
    return present members) = _
  rw [checkMembers_of_fits fits, checkPresence_of_contains complete]
  rfl

private theorem checkPresence_of_missing {members : List (String × Json)} {fields : List Field}
    {field : Field} (member : field ∈ fields) (required : field.presence = .required)
    (missing : Entries.get? members field.name = none) :
    ∃ cause, checkPresence members fields = .error cause := by
  induction fields with
  | nil => cases member
  | cons first fields induction_step =>
      rw [checkPresence]
      split
      · exact ⟨_, rfl⟩
      · rename_i first_fits
        rcases List.mem_cons.1 member with rfl | later
        · refine absurd ⟨required, ?_⟩ first_fits
          simp [Entries.contains, missing]
        · exact induction_step later

/-- An object without a required field is no record. -/
theorem row_of_missing {members : List (String × Json)} {field : Field}
    (member : field ∈ shape.fields) (required : field.presence = .required)
    (missing : Entries.get? members field.name = none) :
    ∃ cause, shape.row (.object members) = .error cause := by
  obtain ⟨absence, absent⟩ := checkPresence_of_missing member required missing
  rw [row, absent]
  cases shape.checkMembers members with
  | error cause => exact ⟨cause, rfl⟩
  | ok _ => exact ⟨absence, rfl⟩

end Shape

/-! ### Fields that are read back -/

theorem Field.check_of {α : Type} {name : String} {presence : Presence} {read : Decoder α}
    {value : Json} {held : α} (read_eq : read value = .ok held) :
    (Field.of name presence read).check value = .ok () := by
  show (read value).map (fun _ => ()) = .ok ()
  rw [read_eq]
  rfl

/-- A value that is not `null` is read by a nullable reader as by the reader itself. -/
theorem nullable_of_ne_null {α : Type} {read : Decoder α} {value : Json} {held : α}
    (read_eq : read value = .ok held) (not_null : value ≠ .null) :
    Decoder.nullable read value = .ok (some held) := by
  rw [Decoder.nullable, read_eq]
  · rfl
  · exact not_null

namespace Shape

variable {α : Type} {shape : Shape} {row : List (String × Json)} {key : String} {read : Decoder α}
  {write : α → Json} {held : Option α}

theorem value_of_get? {found : Json} (at_key : Entries.get? row key = some found) :
    Shape.value row key read = read found := by
  rw [value, at_key]

/-- A field that may be left out reads back what was written. -/
theorem value?_of_get? (at_key : Entries.get? row key = held.map write)
    (round_trip : ∀ item, read (write item) = .ok item) (not_null : ∀ item, write item ≠ .null) :
    Shape.value? row key read = .ok held := by
  rw [value?, at_key]
  cases held with
  | none => rfl
  | some item => exact nullable_of_ne_null (round_trip item) (not_null item)

theorem fits_nullable {presence : Presence}
    (found : shape.fields.find? (·.name == key) = some (.of key presence (.nullable read)))
    (round_trip : ∀ item, read (write item) = .ok item) (not_null : ∀ item, write item ≠ .null) :
    shape.Fits (optionalMember key (held.map write)) := by
  apply fits_optional found
  intro written same
  obtain ⟨item, -, rfl⟩ := Option.map_eq_some_iff.1 same
  exact Field.check_of (nullable_of_ne_null (round_trip item) (not_null item))

theorem value?_text {text : Option String} (at_key : Entries.get? row key = text.map .string) :
    Shape.value? row key .text = .ok text :=
  value?_of_get? at_key (fun _ => rfl) fun _ => nofun

theorem value?_textOrNumber {text : Option String}
    (at_key : Entries.get? row key = text.map .string) :
    Shape.value? row key .textOrNumber = .ok text :=
  value?_of_get? at_key (fun _ => rfl) fun _ => nofun

theorem fits_text {text : Option String} {presence : Presence}
    (found : shape.fields.find? (·.name == key) = some (.of key presence (.nullable .text))) :
    shape.Fits (optionalMember key (text.map .string)) :=
  fits_nullable found (fun _ => rfl) fun _ => nofun

theorem fits_textOrNumber {text : Option String} {presence : Presence}
    (found : shape.fields.find? (·.name == key) =
      some (.of key presence (.nullable .textOrNumber))) :
    shape.Fits (optionalMember key (text.map .string)) :=
  fits_nullable found (fun _ => rfl) fun _ => nofun

end Shape

/-- Items that are read back one by one are read back as a list. -/
theorem list_map {α : Type} {read : Decoder α} {write : α → Json} {items : List α}
    (round_trip : ∀ item ∈ items, read (write item) = .ok item) :
    Decoder.list read (.array (items.map write)) = .ok items := by
  rw [Decoder.list]
  induction items with
  | nil => rfl
  | cons item items induction_step =>
      rw [List.map_cons, List.mapM_cons, round_trip item List.mem_cons_self,
        induction_step fun other later => round_trip other (List.mem_cons_of_mem _ later)]
      rfl

end VesselHub.Json
