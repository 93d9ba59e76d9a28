/-
Module: VesselHub.Json.Decode
Purpose: Read typed records out of parsed values, and name what does not fit.
Main exports: Json.Misfit, Json.Misfit.message, Json.Shape, Json.Shape.row
-/
import VesselHub.Json.Printer
import VesselHub.Text.Quoted

namespace VesselHub.Json

/-- What a reader of values was looking for. -/
inductive Wanted where
  | text
  | unsigned
  | size
  | sequence
  | flag
  | unit
  | address
  | textOrMap
  | record (name : String)
deriving DecidableEq, Repr

/-- Why a value does not have the wanted shape. -/
inductive Misfit where
  | missing (field : String)
  | mismatch (found : Json) (wanted : Wanted)
  | negative (value : Int) (wanted : Wanted)
  | badAddress
  | severalKeys
  | unknownVariant (name : String) (known : List String)
  | tooShort (length : Nat) (record : String) (fields : Nat)
  | tooLong (length : Nat)
  | notTextOrNumber (found : Json)

/-- The name of what was looked for. -/
def Wanted.description : Wanted → String
  | .text => "a string"
  | .unsigned => "u64"
  | .size => "usize"
  | .sequence => "a sequence"
  | .flag => "a boolean"
  | .unit => "unit"
  | .address => "socket address"
  | .textOrMap => "string or map"
  | .record name => "struct " ++ name

/-- A text between backward ticks. -/
def ticked (text : String) : String :=
  "\x60" ++ text ++ "\x60"

/-- How a value is named in a complaint about it. -/
def described : Json → String
  | .null => "null"
  | .bool value => "boolean " ++ ticked (if value then "true" else "false")
  | .number (.int value) => "integer " ++ ticked (String.ofList (integerText value))
  | .number (.double value) => "floating point " ++ ticked (String.ofList value.text)
  | .string text => "string " ++ Text.quote text
  | .array _ => "sequence"
  | .object _ => "map"

/-- The wording of a complaint. -/
def Misfit.message : Misfit → String
  | .missing field => "missing field " ++ ticked field
  | .mismatch found wanted =>
      "invalid type: " ++ found.described ++ ", expected " ++ wanted.description
  | .negative value wanted =>
      "invalid value: integer " ++ ticked (String.ofList (integerText value)) ++
        ", expected " ++ wanted.description
  | .badAddress => "invalid socket address syntax"
  | .severalKeys => "invalid value: map, expected map with a single key"
  | .unknownVariant name known =>
      "unknown variant " ++ ticked name ++ ", expected " ++
        String.intercalate " or " (known.map ticked)
  | .tooShort length record fields =>
      "invalid length " ++ countText length ++ ", expected struct " ++ record ++ " with " ++
        countText fields ++ (if fields = 1 then " element" else " elements")
  | .tooLong length =>
      "invalid length " ++ countText length ++ ", expected fewer elements in array"
  | .notTextOrNumber found => "expected string or number, got " ++ found.compact

/-- A reader of one type of value. -/
abbrev Decoder (α : Type) := Json → Except Misfit α

namespace Decoder

/-- Any value. -/
def any : Decoder Json := .ok

def text : Decoder String
  | .string value => .ok value
  | found => .error (.mismatch found .text)

/-- An integer that is not negative, named as wanted in complaints. -/
def natural (wanted : Wanted) : Decoder Nat
  | .number (.int (.ofNat value)) => .ok value
  | .number (.int value) => .error (.negative value wanted)
  | found => .error (.mismatch found wanted)

def unsigned : Decoder Nat := natural .unsigned

def size : Decoder Nat := natural .size

def flag : Decoder Bool
  | .bool value => .ok value
  | found => .error (.mismatch found .flag)

/-- A text, or a number in its written form. -/
def textOrNumber : Decoder String
  | .string value => .ok value
  | .number value => .ok (String.ofList value.text)
  | found => .error (.notTextOrNumber found)

/-- A list; the first item that does not fit is reported. -/
def list {α : Type} (item : Decoder α) : Decoder (List α)
  | .array items => items.mapM item
  | found => .error (.mismatch found .sequence)

/-- A value that may be `null`. -/
def nullable {α : Type} (value : Decoder α) : Decoder (Option α)
  | .null => .ok none
  | found => (value found).map some

/-- One of the named choices, given by its name or as the only key of an object with value
`null`. -/
def choice {α : Type} (choices : Entries α) : Decoder α
  | .string name => named name
  | .object [(name, value)] => do
      let chosen ← named name
      match value with
      | .null => return chosen
      | found => throw (.mismatch found .unit)
  | .object _ => .error .severalKeys
  | found => .error (.mismatch found .textOrMap)
where
  named (name : String) : Except Misfit α :=
    match Entries.get? choices name with
    | some chosen => .ok chosen
    | none => .error (.unknownVariant name (Entries.keys choices))

end Decoder

/-- Where a field of a record may be left out. -/
inductive Presence where
  /-- Nowhere. -/
  | required
  /-- Where the record is an object. -/
  | inObjects
  /-- Everywhere. -/
  | optional
deriving DecidableEq, Repr

/-- A field of a record: its name, where it may be left out and what its value has to be. -/
structure Field where
  name : String
  presence : Presence
  check : Json → Except Misfit Unit

/-- A field with a reader for its values. -/
def Field.of {α : Type} (name : String) (presence : Presence) (read : Decoder α) : Field where
  name := name
  presence := presence
  check := fun value => (read value).map fun _ => ()

/-- A record type: its name and its fields in order. A record is written as an object, or as an
array of the values of its fields. -/
structure Shape where
  name : String
  fields : List Field

namespace Shape

/-- Checks the members of an object in their order; unknown ones are ignored. -/
def checkMembers (shape : Shape) : List (String × Json) → Except Misfit Unit
  | [] => .ok ()
  | (key, value) :: members => do
      match shape.fields.find? (·.name == key) with
      | some field => field.check value
      | none => pure ()
      checkMembers shape members

/-- Looks for the first field that is missing from an object. -/
def checkPresence (members : List (String × Json)) : List Field → Except Misfit Unit
  | [] => .ok ()
  | field :: fields =>
      if field.presence = .required ∧ ¬ Entries.contains members field.name then
        .error (.missing field.name)
      else checkPresence members fields

/-- Names the items of an array by the fields, in order. -/
def nameItems (shape : Shape) : List Field → List Json → Except Misfit (List (String × Json))
  | [], _ => .ok []
  | field :: fields, item :: items => do
      field.check item
      return (field.name, item) :: (← nameItems shape fields items)
  | field :: fields, [] =>
      if field.presence = .optional then nameItems shape fields []
      else
        let position := shape.fields.length - (fields.length + 1)
        .error (.tooShort position shape.name shape.fields.length)

/-- The values of a record by the names of its fields. Every value fits its field, and every
required field is there. -/
def row (shape : Shape) : Json → Except Misfit (List (String × Json))
  | .object members => do
      checkMembers shape members
      checkPresence members shape.fields
      return members
  | .array items => do
      let named ← nameItems shape shape.fields items
      if shape.fields.length < items.length then throw (.tooLong items.length)
      return named
  | found => .error (.mismatch found (.record shape.name))

/-- The value of a required field of a row. -/
def value {α : Type} (row : List (String × Json)) (name : String) (read : Decoder α) :
    Except Misfit α :=
  match Entries.get? row name with
  | some found => read found
  | none => .error (.missing name)

/-- The value of a field that may be left out or be `null`. -/
def value? {α : Type} (row : List (String × Json)) (name : String) (read : Decoder α) :
    Except Misfit (Option α) :=
  match Entries.get? row name with
  | some found => Decoder.nullable read found
  | none => .ok none

/-- The value of a list that may be left out. -/
def items {α : Type} (row : List (String × Json)) (name : String) (read : Decoder α) :
    Except Misfit (List α) :=
  match Entries.get? row name with
  | some found => Decoder.list read found
  | none => .ok []

end Shape

/-- The members that are present, in order. -/
def objectOf (members : List (Option (String × Json))) : Json :=
  .object (members.filterMap id)

/-- A member that is written only if there is a value. -/
def optionalMember (key : String) (value : Option Json) : Option (String × Json) :=
  value.map fun present => (key, present)

end VesselHub.Json
