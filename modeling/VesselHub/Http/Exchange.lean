/-
Module: VesselHub.Http.Exchange
Purpose: Answer HTTP requests: which endpoint a target names, and what the answer looks like.
Main exports: Http.Request, Http.Response, Http.Endpoint, Hub.serve
-/
import VesselHub.Http.Api
import VesselHub.Http.Target
import VesselHub.Text.Utf8

namespace VesselHub

namespace Http

structure Request where
  method : String
  target : String
  /-- The host that the client names. -/
  host : Option String
deriving DecidableEq, Repr

structure Response where
  status : Nat
  contentType : Option String
  /-- The methods that would have been possible. -/
  allow : Option String
  body : String
deriving DecidableEq, Repr

namespace Response

def ofJson (value : Json) : Response :=
  ⟨200, some "application/json", none, value.compact⟩

def notFound : Response := ⟨404, none, none, ""⟩

def methodNotAllowed : Response := ⟨405, none, some "GET,HEAD", ""⟩

/-- The answer to a location whose escapes do not form a text. -/
def badLocation : Response :=
  ⟨400, some "text/plain; charset=utf-8", none, "Invalid URL: Invalid UTF-8 in \x60path\x60"⟩

/-- The answer to what is no request. -/
def badRequest : Response := ⟨400, none, none, ""⟩

def targetTooLong : Response := ⟨414, none, none, ""⟩

def ofFlaw : TargetFlaw → Response
  | .malformed => badRequest
  | .tooLong => targetTooLong

def withoutBody (response : Response) : Response :=
  { response with body := "" }

end Response

/-- What can be asked for. -/
inductive Endpoint where
  | discovery
  | document
  /-- A branch, by its location as it was sent. -/
  | branch (location : String)
deriving DecidableEq, Repr

/-- The endpoint at a path. -/
def Endpoint.ofPath? (path : String) : Option Endpoint :=
  if path = "/signalk" then some .discovery
  else if path = "/signalk/v1/api" then some .document
  else
    match Text.dropStart? "/signalk/v1/api/" path with
    | none => none
    | some location => if location = "" then none else some (.branch location)

/-- Whether a character can stand in the name of a method. -/
def isMethodCharacter (character : Char) : Bool :=
  character.isAlphanum || "!#$%&'*+-.^_\x60|~".toList.contains character

/-- Whether a character can stand in a header: of the control characters only the tab can. -/
def isHeaderCharacter (character : Char) : Bool :=
  (32 ≤ character.toNat && character.toNat != 127) || character == '\t'

/-- Whether a request, its target aside, has the form of one. -/
def Request.isWellFormed (request : Request) : Bool :=
  request.method != "" && request.method.toList.all isMethodCharacter &&
    (request.host.getD "").toList.all isHeaderCharacter

/-- The value of a header, to which blanks around it do not belong. -/
def headerValue (text : String) : String :=
  String.ofList (Text.trimChars (fun character => character == ' ' || character == '\t')
    text.toList)

end Http

namespace Hub

/-- The answer to a request for what an endpoint shows. -/
def view (hub : Hub) (host : Option String) : Http.Endpoint → Http.Response
  | .discovery => .ofJson (hub.discovery (host.map Http.headerValue)).encode
  | .document => .ofJson hub.apiDocument
  | .branch location =>
      match Text.ofBytes? (Text.unescape (Text.bytes location)) with
      | none => .badLocation
      | some location =>
          match hub.apiBranch? location with
          | some value => .ofJson value
          | none => .notFound

/-- Answers a request for a path. Only reading is possible. -/
def serveAt (hub : Hub) (request : Http.Request) (path : String) : Http.Response :=
  match Http.Endpoint.ofPath? path with
  | none => .notFound
  | some endpoint =>
      if request.method = "GET" then hub.view request.host endpoint
      else if request.method = "HEAD" then (hub.view request.host endpoint).withoutBody
      else .methodNotAllowed

/-- Answers a request. -/
def serve (hub : Hub) (request : Http.Request) : Http.Response :=
  if request.isWellFormed then
    match Http.targetPath request.target with
    | .ok path => hub.serveAt request path
    | .error flaw => .ofFlaw flaw
  else .badRequest

end Hub

end VesselHub
