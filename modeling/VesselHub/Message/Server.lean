/-
Module: VesselHub.Message.Server
Purpose: What the hub sends: greetings, deltas, path lists and documents, and the answer that
  lists its endpoints.
Main exports: Hello, PathList, ServerMessage, ServerMessage.encode, Discovery
-/
import VesselHub.Delta
import VesselHub.Message.Request

namespace VesselHub

/-- The greeting to a new consumer. -/
structure Hello where
  name : String
  version : String
  /-- The context of the local vessel. -/
  selfContext : String
  roles : List String
  timestamp : String
deriving DecidableEq, Repr

/-- The answer to a list request: full paths of leaves. -/
structure PathList where
  context : String
  paths : List String
deriving DecidableEq, Repr

/-- A message to a consumer. -/
inductive ServerMessage where
  | hello (greeting : Hello)
  | delta (changes : Delta)
  | pathList (list : PathList)
  /-- A document shaped like the model. -/
  | full (document : Json)

open Json

namespace Hello

/-- The greeting of a hub that has no further roles. -/
def ofHub (name version selfContext timestamp : String) : Hello where
  name := name
  version := version
  selfContext := selfContext
  roles := ["main"]
  timestamp := timestamp

def shape : Shape where
  name := "Hello"
  fields := [
    .of "name" .required .text,
    .of "version" .required .text,
    .of "self" .required .text,
    .of "roles" .required (Decoder.list .text),
    .of "timestamp" .required .text]

def decode : Decoder Hello := fun found => do
  let row ← shape.row found
  return {
    name := ← Shape.value row "name" .text
    version := ← Shape.value row "version" .text
    selfContext := ← Shape.value row "self" .text
    roles := ← Shape.value row "roles" (Decoder.list .text)
    timestamp := ← Shape.value row "timestamp" .text }

def encode (greeting : Hello) : Json :=
  .object [
    ("name", .string greeting.name),
    ("version", .string greeting.version),
    ("self", .string greeting.selfContext),
    ("roles", .ofStrings greeting.roles),
    ("timestamp", .string greeting.timestamp)]

end Hello

namespace PathList

def shape : Shape where
  name := "PathList"
  fields := [.of "context" .required .text, .of "pathlist" .required (Decoder.list .text)]

def decode : Decoder PathList := fun found => do
  let row ← shape.row found
  return {
    context := ← Shape.value row "context" .text
    paths := ← Shape.value row "pathlist" (Decoder.list .text) }

def encode (list : PathList) : Json :=
  .object [("context", .string list.context), ("pathlist", .ofStrings list.paths)]

end PathList

namespace ServerMessage

/-- A message carries no tag: it is read as the first kind whose fields it has. -/
def ofJson (value : Json) : ServerMessage :=
  match Hello.decode value with
  | .ok greeting => .hello greeting
  | .error _ =>
      match Delta.decode value with
      | .ok changes => .delta changes
      | .error _ =>
          match PathList.decode value with
          | .ok list => .pathList list
          | .error _ => .full value

def encode : ServerMessage → Json
  | .hello greeting => greeting.encode
  | .delta changes => changes.encode
  | .pathList list => list.encode
  | .full document => document

end ServerMessage

/-- Where a hub can be reached. -/
structure Discovery where
  name : String
  version : String
  host : String
  httpPort : Nat
  wsPort : Nat
  tcpPort : Nat
deriving DecidableEq, Repr

namespace Discovery

/-- The answer of the discovery endpoint. -/
def encode (discovery : Discovery) : Json :=
  let host := discovery.host
  .object [
    ("endpoints", .object [("v1", .object [
      ("version", .string discovery.version),
      ("signalk-http",
        .string ("http://" ++ host ++ ":" ++ countText discovery.httpPort ++ "/signalk/v1/api")),
      ("signalk-ws",
        .string ("ws://" ++ host ++ ":" ++ countText discovery.wsPort ++ "/signalk/v1/stream")),
      ("signalk-tcp", .string ("tcp://" ++ host ++ ":" ++ countText discovery.tcpPort))])]),
    ("server", .object [
      ("id", .string discovery.name), ("version", .string discovery.version)])]

end Discovery

/-- A message as one line of a line-oriented connection. -/
def frameLine (payload : String) : String :=
  payload ++ "\r\n"

end VesselHub
