/-
Module: VesselHub.Source
Purpose: Descriptions of where a message came from, and the provenance text they are folded into.
Main exports: Source, Source.provenance, Source.decode, Source.encode
-/
import VesselHub.Json.Decode
import VesselHub.Text.Split

namespace VesselHub

/-- Where a message came from. Which fields are given depends on the producing protocol. -/
structure Source where
  /-- Device or bus that the message was read from. -/
  device : Option String
  /-- Name used when no device is given. -/
  label : Option String
  kind : Option String
  /-- Time shared by the values of the message. -/
  timestamp : Option String
  /-- NMEA 2000 source address. -/
  address : Option String
  /-- NMEA 2000 parameter group number. -/
  group : Option String
  /-- NMEA 0183 talker. -/
  talker : Option String
  /-- NMEA 0183 sentence. -/
  sentence : Option String
deriving DecidableEq, Repr

namespace Source

/-- The provenance recorded with a value: the device, then address and group for NMEA 2000, or
talker and sentence for NMEA 0183, or the address alone. -/
def provenance (source : Source) : String :=
  let device := ((source.device.or source.label).or source.kind).getD "unknown"
  let details :=
    if source.group.isSome then
      "N2K" :: source.address.toList ++ source.group.toList
    else if source.sentence.isSome then
      "0183" :: source.talker.toList ++ source.sentence.toList
    else source.address.toList
  Text.join '-' (device :: details)

open Json in
/-- The fields of a source description, all of which may be left out. -/
def shape : Shape where
  name := "SourceDescriptor"
  fields := [
    .of "device" .optional (Decoder.nullable .text),
    .of "label" .optional (Decoder.nullable .text),
    .of "type" .optional (Decoder.nullable .text),
    .of "timestamp" .optional (Decoder.nullable .text),
    .of "src" .optional (Decoder.nullable .textOrNumber),
    .of "pgn" .optional (Decoder.nullable .textOrNumber),
    .of "talker" .optional (Decoder.nullable .text),
    .of "sentence" .optional (Decoder.nullable .text)]

open Json in
/-- Reads a source description. -/
def decode : Decoder Source := fun found => do
  let row ← shape.row found
  return {
    device := ← Shape.value? row "device" .text
    label := ← Shape.value? row "label" .text
    kind := ← Shape.value? row "type" .text
    timestamp := ← Shape.value? row "timestamp" .text
    address := ← Shape.value? row "src" .textOrNumber
    group := ← Shape.value? row "pgn" .textOrNumber
    talker := ← Shape.value? row "talker" .text
    sentence := ← Shape.value? row "sentence" .text }

open Json in
/-- Writes a source description; absent fields are left out. -/
def encode (source : Source) : Json :=
  objectOf [
    optionalMember "device" (source.device.map .string),
    optionalMember "label" (source.label.map .string),
    optionalMember "type" (source.kind.map .string),
    optionalMember "timestamp" (source.timestamp.map .string),
    optionalMember "src" (source.address.map .string),
    optionalMember "pgn" (source.group.map .string),
    optionalMember "talker" (source.talker.map .string),
    optionalMember "sentence" (source.sentence.map .string)]

end Source

end VesselHub
