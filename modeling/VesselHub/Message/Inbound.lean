/-
Module: VesselHub.Message.Inbound
Purpose: Tell by its members what an inbound message is.
Main exports: Inbound, Inbound.classify, Inbound.ofText, MessageError
-/
import VesselHub.Json.Reader
import VesselHub.Message.Request
import VesselHub.Path.Basic
import VesselHub.Text.Blank

namespace VesselHub

/-- An inbound message by kind. -/
inductive Inbound where
  /-- A document that starts at `vessels`. -/
  | document (value : Json)
  /-- A delta that is yet to be read. -/
  | delta (value : Json)
  | get (request : GetRequest)
  | list (request : ListRequest)
  | subscribe (request : SubscribeRequest)
  | unsubscribe (request : UnsubscribeRequest)

/-- Why a text is not a message. -/
inductive MessageError where
  /-- The text has a flaw at some place. -/
  | notJson (flaw : Json.Flaw) (text : String)
  | misfit (cause : Json.Misfit)
  | notAnObject
  | unknown

/-- The wording of a complaint. -/
def MessageError.message : MessageError → String
  | .notJson flaw text => "Invalid JSON: " ++ flaw.message text
  | .misfit cause => "Invalid JSON: " ++ cause.message
  | .notAnObject => "Message is not a JSON object"
  | .unknown => "Unknown message type"

namespace Inbound

/-- The name of the kind of a message. -/
def kind : Inbound → String
  | .document _ => "document"
  | .delta _ => "delta"
  | .get _ => "get"
  | .list _ => "list"
  | .subscribe _ => "subscribe"
  | .unsubscribe _ => "unsubscribe"

/-- Documents go before everything else, requests are known by their verb, and what remains is a
delta if it has a context. -/
def classify (value : Json) : Except MessageError Inbound :=
  match value with
  | .object members =>
      if Entries.contains members vesselsKey then .ok (.document value)
      else if Entries.contains members "subscribe" then
        ((SubscribeRequest.decode value).map .subscribe).mapError .misfit
      else if Entries.contains members "unsubscribe" then
        ((UnsubscribeRequest.decode value).map .unsubscribe).mapError .misfit
      else if Entries.contains members "get" then
        ((GetRequest.decode value).map .get).mapError .misfit
      else if Entries.contains members "list" then
        ((ListRequest.decode value).map .list).mapError .misfit
      else if Entries.contains members "context" then .ok (.delta value)
      else .error .unknown
  | _ => .error .notAnObject

/-- Reads and classifies a text, white space at its ends aside. -/
def ofText (text : String) : Except MessageError Inbound :=
  let text := Text.trim text
  match Json.parse text with
  | .ok value => classify value
  | .error flaw => .error (.notJson flaw text)

/-- A message in its JSON form. -/
def encode : Inbound → Json
  | .document value => value
  | .delta value => value
  | .get request => request.encode
  | .list request => request.encode
  | .subscribe request => request.encode
  | .unsubscribe request => request.encode

end Inbound

end VesselHub
