/-
Module: VesselHub.Message.Request
Purpose: What consumers ask for: values, path lists, and subscriptions.
Main exports: GetRequest, ListRequest, SubscribeRequest, Subscription, UnsubscribeRequest
-/
import VesselHub.Json.Decode

namespace VesselHub

/-- Asks once for the values at paths below a context. -/
structure GetRequest where
  context : String
  /-- Paths below the context, possibly with wildcards; none asks for the whole context. -/
  wanted : List String
deriving DecidableEq, Repr

/-- Asks for the paths of the leaves below a context. -/
structure ListRequest where
  context : String
  /-- Patterns below the context; none asks for every leaf. -/
  wanted : List String
deriving DecidableEq, Repr

/-- What the payloads of a subscription look like. -/
inductive Format where
  /-- The leaves that changed. -/
  | delta
  /-- All leaves that are covered. -/
  | full
deriving DecidableEq, Repr

/-- One subscription of a request. -/
structure Subscription where
  path : String
  /-- The wanted time between two payloads, in milliseconds. -/
  period : Option Nat
  format : Option Format
deriving DecidableEq, Repr

structure SubscribeRequest where
  context : String
  subscriptions : List Subscription
deriving DecidableEq, Repr

structure UnsubscribeRequest where
  context : String
  paths : List String
deriving DecidableEq, Repr

open Json

namespace GetRequest

def shape : Shape where
  name := "GetRequest"
  fields := [.of "context" .required .text, .of "get" .optional (Decoder.list .text)]

def decode : Decoder GetRequest := fun found => do
  let row ← shape.row found
  return { context := ← Shape.value row "context" .text, wanted := ← Shape.items row "get" .text }

def encode (request : GetRequest) : Json :=
  .object [("context", .string request.context), ("get", .ofStrings request.wanted)]

end GetRequest

namespace ListRequest

def shape : Shape where
  name := "ListRequest"
  fields := [.of "context" .required .text, .of "list" .optional (Decoder.list .text)]

def decode : Decoder ListRequest := fun found => do
  let row ← shape.row found
  return { context := ← Shape.value row "context" .text, wanted := ← Shape.items row "list" .text }

def encode (request : ListRequest) : Json :=
  .object [("context", .string request.context), ("list", .ofStrings request.wanted)]

end ListRequest

namespace Format

/-- The names of the formats. -/
def choices : Entries Format := [("delta", .delta), ("full", .full)]

def name : Format → String
  | .delta => "delta"
  | .full => "full"

end Format

namespace Subscription

def shape : Shape where
  name := "Subscription"
  fields := [
    .of "path" .required .text,
    .of "period" .inObjects (Decoder.nullable .unsigned),
    .of "format" .inObjects (Decoder.nullable (.choice Format.choices))]

def decode : Decoder Subscription := fun found => do
  let row ← shape.row found
  return {
    path := ← Shape.value row "path" .text
    period := ← Shape.value? row "period" .unsigned
    format := ← Shape.value? row "format" (.choice Format.choices) }

def encode (subscription : Subscription) : Json :=
  objectOf [
    some ("path", .string subscription.path),
    optionalMember "period" (subscription.period.map .ofNat),
    optionalMember "format" (subscription.format.map fun format => .string format.name)]

end Subscription

namespace SubscribeRequest

def shape : Shape where
  name := "SubscribeRequest"
  fields := [
    .of "context" .required .text,
    .of "subscribe" .required (Decoder.list Subscription.decode)]

def decode : Decoder SubscribeRequest := fun found => do
  let row ← shape.row found
  return {
    context := ← Shape.value row "context" .text
    subscriptions := ← Shape.value row "subscribe" (Decoder.list Subscription.decode) }

def encode (request : SubscribeRequest) : Json :=
  .object [
    ("context", .string request.context),
    ("subscribe", .array (request.subscriptions.map Subscription.encode))]

end SubscribeRequest

namespace UnsubscribeRequest

/-- The path that stands for all subscriptions of a session. -/
def everything : String := "*"

def namesEverything (path : String) : Bool :=
  path == everything

def specShape : Shape where
  name := "UnsubscribeSpec"
  fields := [.of "path" .required .text]

/-- Reads one entry, which holds nothing but a path. -/
def decodeSpec : Decoder String := fun found => do
  let row ← specShape.row found
  Shape.value row "path" .text

def encodeSpec (path : String) : Json :=
  .object [("path", .string path)]

def shape : Shape where
  name := "UnsubscribeRequest"
  fields := [
    .of "context" .required .text,
    .of "unsubscribe" .required (Decoder.list decodeSpec)]

def decode : Decoder UnsubscribeRequest := fun found => do
  let row ← shape.row found
  return {
    context := ← Shape.value row "context" .text
    paths := ← Shape.value row "unsubscribe" (Decoder.list decodeSpec) }

def encode (request : UnsubscribeRequest) : Json :=
  .object [
    ("context", .string request.context),
    ("unsubscribe", .array (request.paths.map encodeSpec))]

end UnsubscribeRequest

end VesselHub
