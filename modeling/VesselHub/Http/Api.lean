/-
Module: VesselHub.Http.Api
Purpose: What the hub shows over HTTP: its endpoints, the whole model, and branches of it, always
  without private branches.
Main exports: Hub.apiDocument, Hub.apiBranch?, Hub.discovery
-/
import VesselHub.Hub.Basic

namespace VesselHub

namespace Http

/-- Whether a host may hold a character: visible ASCII, space and tab. -/
def isHostCharacter (character : Char) : Bool :=
  (32 ≤ character.toNat && character.toNat < 127) || character == '\t'

/-- The host that a client reached the hub by, without its port. -/
def hostName : Option String → String
  | none => "localhost"
  | some host =>
      if host.toList.all isHostCharacter then Text.beforeLast ':' host else "localhost"

/-- The path that a location names: its parts may be separated by slashes or dots. -/
def pathOf (location : String) : String :=
  String.ofList ((Text.trimChars (· == '/') location.toList).map fun character =>
    if character == '/' then '.' else character)

end Http

namespace Hub

/-- The whole model. -/
def apiDocument (hub : Hub) : Json :=
  hub.model.tree.safe.encode

/-- The branch at a location. -/
def apiBranch? (hub : Hub) (location : String) : Option Json :=
  (hub.model.tree.safe.at? hub.model.resolver (Http.pathOf location)).map Tree.encode

/-- Where the hub can be reached by a client that named this host. -/
def discovery (hub : Hub) (host : Option String) : Discovery where
  name := hub.config.name
  version := hub.config.version
  host := Http.hostName host
  httpPort := hub.config.httpAddress.port
  wsPort := hub.config.wsAddress.port
  tcpPort := hub.config.tcpAddress.port

end Hub

end VesselHub
