/-
Module: VesselHub.Delta
Purpose: Messages that carry values for paths below a context, in the flat form and in the form
  with updates.
Main exports: Delta, Update, PathValue, Delta.decode, Delta.encode
-/
import VesselHub.Source

namespace VesselHub

/-- A value for a path relative to the context of its message. -/
structure PathValue where
  path : String
  value : Json
  /-- The time of this value, before that of its source. -/
  timestamp : Option String

/-- Values of one source and time. -/
structure Update where
  /-- The name of a source. -/
  sourceRef : Option String
  /-- A description of the source, which goes before its name. -/
  source : Option Source
  timestamp : Option String
  values : List PathValue

/-- Values for paths below a context, given flat or in updates, or both. -/
structure Delta where
  context : String
  /-- The source of the flat values, and of updates that name none. -/
  source : Option Source
  values : List PathValue
  updates : List Update

open Json

namespace PathValue

def shape : Shape where
  name := "PathValue"
  fields := [
    .of "path" .required .text,
    .of "value" .required .any,
    .of "timestamp" .optional (Decoder.nullable .text)]

def decode : Decoder PathValue := fun found => do
  let row ← shape.row found
  return {
    path := ← Shape.value row "path" .text
    value := ← Shape.value row "value" .any
    timestamp := ← Shape.value? row "timestamp" .text }

def encode (item : PathValue) : Json :=
  objectOf [
    some ("path", .string item.path),
    some ("value", item.value),
    optionalMember "timestamp" (item.timestamp.map .string)]

end PathValue

namespace Update

def shape : Shape where
  name := "Update"
  fields := [
    .of "$source" .optional (Decoder.nullable .text),
    .of "source" .optional (Decoder.nullable Source.decode),
    .of "timestamp" .optional (Decoder.nullable .text),
    .of "values" .required (Decoder.list PathValue.decode)]

def decode : Decoder Update := fun found => do
  let row ← shape.row found
  return {
    sourceRef := ← Shape.value? row "$source" .text
    source := ← Shape.value? row "source" Source.decode
    timestamp := ← Shape.value? row "timestamp" .text
    values := ← Shape.value row "values" (Decoder.list PathValue.decode) }

def encode (update : Update) : Json :=
  objectOf [
    optionalMember "$source" (update.sourceRef.map .string),
    optionalMember "source" (update.source.map Source.encode),
    optionalMember "timestamp" (update.timestamp.map .string),
    some ("values", .array (update.values.map PathValue.encode))]

end Update

namespace Delta

def shape : Shape where
  name := "Delta"
  fields := [
    .of "context" .required .text,
    .of "source" .optional (Decoder.nullable Source.decode),
    .of "values" .optional (Decoder.list PathValue.decode),
    .of "updates" .optional (Decoder.list Update.decode)]

/-- Reads a delta. -/
def decode : Decoder Delta := fun found => do
  let row ← shape.row found
  return {
    context := ← Shape.value row "context" .text
    source := ← Shape.value? row "source" Source.decode
    values := ← Shape.items row "values" PathValue.decode
    updates := ← Shape.items row "updates" Update.decode }

/-- A list that is written only if it has items. -/
def listMember (key : String) (items : List Json) : Option (String × Json) :=
  if items.isEmpty then none else some (key, .array items)

/-- Writes a delta; absent and empty fields are left out. -/
def encode (delta : Delta) : Json :=
  objectOf [
    some ("context", .string delta.context),
    optionalMember "source" (delta.source.map Source.encode),
    listMember "values" (delta.values.map PathValue.encode),
    listMember "updates" (delta.updates.map Update.encode)]

end Delta

end VesselHub
