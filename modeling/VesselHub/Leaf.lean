/-
Module: VesselHub.Leaf
Purpose: Values with the provenance they were written with, and their JSON form.
Main exports: Leaf, Leaf.decode, Leaf.encode, LeafError
-/
import VesselHub.Source
import VesselHub.Time.Reader

namespace VesselHub

/-- A value that is written and replaced as a unit, with its source and time. The value itself
may be structured. -/
structure Leaf where
  value : Json
  source : Option String
  timestamp : Option Instant

/-- Why an object is not a leaf. -/
inductive LeafError where
  | missingValue
  | badTimestamp (raw : String) (reason : TimeError)
  | timestampNotText (raw : String)

/-- The wording of a complaint. -/
def LeafError.message : LeafError → String
  | .missingValue => "leaf has no value member"
  | .badTimestamp raw reason => "unparsable timestamp " ++ Text.quote raw ++ ": " ++ reason.message
  | .timestampNotText raw =>
      "unparsable timestamp " ++ Text.quote raw ++ ": timestamp must be a string"

namespace Leaf

/-- A value without provenance. -/
def bare (value : Json) : Leaf where
  value := value
  source := none
  timestamp := none

/-- Equality of leaves: equal values, the same source and the same time. -/
def same (left right : Leaf) : Bool :=
  left.value.same right.value && left.source == right.source &&
    left.timestamp == right.timestamp

/-- Reads the time of a leaf. -/
def decodeTimestamp : Option Json → Except LeafError (Option Instant)
  | none => .ok none
  | some .null => .ok none
  | some (.string raw) =>
      match Instant.parse raw with
      | .ok instant => .ok (some instant)
      | .error reason => .error (.badTimestamp raw reason)
  | some other => .error (.timestampNotText other.compact)

/-- The source of a leaf: a text as it is, a description by its provenance, and any other value
by its JSON text. -/
def decodeSource : Option Json → Option String
  | none => none
  | some .null => none
  | some (.string text) => some text
  | some (.object members) =>
      match Source.decode (.object members) with
      | .ok source => some source.provenance
      | .error _ => some (Json.object members).compact
  | some other => some other.compact

/-- Reads a leaf from the members of an object. The source is given as `source`, or else as
`$source`. -/
def decode (members : List (String × Json)) : Except LeafError Leaf :=
  match Entries.get? members "value" with
  | none => .error .missingValue
  | some value =>
      (decodeTimestamp (Entries.get? members "timestamp")).map fun timestamp =>
        { value
          source := decodeSource
            ((Entries.get? members "source").or (Entries.get? members "$source"))
          timestamp }

/-- The time of a leaf as it is sent. -/
def timestampText (leaf : Leaf) : Option String :=
  leaf.timestamp.map Instant.text

/-- The form in which a leaf is sent. Absent provenance is left out. -/
def encode (leaf : Leaf) : Json :=
  Json.objectOf [
    some ("value", leaf.value),
    Json.optionalMember "timestamp" (leaf.timestampText.map .string),
    Json.optionalMember "source" (leaf.source.map .string)]

end Leaf

end VesselHub
