/-
Module: VesselHub.Config.Basic
Purpose: The settings of a hub, their defaults, and the conditions they have to meet.
Main exports: Config, Config.standard, Config.validate, Config.encode, Config.decode
-/
import VesselHub.Config.Address
import VesselHub.Json.Decode
import VesselHub.Path.Basic

namespace VesselHub

/-- The settings of one hub. -/
structure Config where
  /-- The name in greetings. -/
  name : String
  /-- The version announced to consumers. -/
  version : String
  /-- The id of the local vessel. -/
  selfId : String
  wsAddress : SocketAddress
  tcpAddress : SocketAddress
  httpAddress : SocketAddress
  /-- The period of subscriptions that name none, in milliseconds. -/
  defaultPeriod : Nat
  /-- The shortest period of a subscription, in milliseconds. -/
  minPeriod : Nat
  /-- How many inbound messages may wait. -/
  ingestQueue : Nat
  /-- How many messages may wait for each session. -/
  sessionQueue : Nat
  /-- Whether simulated data is fed into the hub. -/
  demo : Bool
deriving Repr

/-- Why settings cannot be used. -/
inductive ConfigError where
  | notOneSegment (selfId : String)
  | selfIsAlias
  | zeroMinPeriod
  | defaultBelowMin (defaultPeriod minPeriod : Nat)
  | emptyQueue
deriving DecidableEq, Repr

/-- The wording of a complaint. -/
def ConfigError.message : ConfigError → String
  | .notOneSegment selfId =>
      "invalid configuration: selfId " ++ Text.quote selfId ++ " must be a single path segment"
  | .selfIsAlias => "invalid configuration: selfId cannot be the alias itself"
  | .zeroMinPeriod => "invalid configuration: minPeriodMs must be positive"
  | .defaultBelowMin defaultPeriod minPeriod =>
      "invalid configuration: defaultPeriodMs (" ++ Json.countText defaultPeriod ++
        ") is below minPeriodMs (" ++ Json.countText minPeriod ++ ")"
  | .emptyQueue => "invalid configuration: queue sizes must be positive"

namespace Config

/-- Every interface of this machine at a port. -/
def anyInterface (port : Nat) : SocketAddress :=
  .v4 ⟨0, 0, 0, 0⟩ port

/-- The settings of a hub that nobody configured. -/
def standard : Config where
  name := "signalk-hub"
  version := "1.7.0"
  selfId := "urn:mrn:signalk:uuid:00000000-0000-0000-0000-000000000000"
  wsAddress := anyInterface 3000
  tcpAddress := anyInterface 5555
  httpAddress := anyInterface 8080
  defaultPeriod := 1000
  minPeriod := 100
  ingestQueue := 1024
  sessionQueue := 256
  demo := false

/-- The alias of the configured vessel. -/
def resolver (config : Config) : Resolver :=
  .ofText config.selfId

/-- The id of the configured vessel without the `vessels.` that may stand before it. -/
def bareId (config : Config) : String :=
  (Text.dropStart? "vessels." config.selfId).getD config.selfId

/-- The context of the configured vessel. -/
def selfContext (config : Config) : String :=
  "vessels." ++ config.bareId

/-- Checks the settings; the first condition that fails is reported. -/
def validate (config : Config) : Except ConfigError Unit :=
  let id := config.bareId
  if id = "" ∨ '.' ∈ id.toList then .error (.notOneSegment config.selfId)
  else if id = selfKey then .error .selfIsAlias
  else if config.minPeriod = 0 then .error .zeroMinPeriod
  else if config.defaultPeriod < config.minPeriod then
    .error (.defaultBelowMin config.defaultPeriod config.minPeriod)
  else if config.ingestQueue = 0 ∨ config.sessionQueue = 0 then .error .emptyQueue
  else .ok ()

open Json

/-- Writes the settings. -/
def encode (config : Config) : Json :=
  .object [
    ("name", .string config.name),
    ("version", .string config.version),
    ("selfId", .string config.selfId),
    ("wsAddr", .string config.wsAddress.text),
    ("tcpAddr", .string config.tcpAddress.text),
    ("httpAddr", .string config.httpAddress.text),
    ("defaultPeriodMs", .ofNat config.defaultPeriod),
    ("minPeriodMs", .ofNat config.minPeriod),
    ("ingestQueue", .ofNat config.ingestQueue),
    ("sessionQueue", .ofNat config.sessionQueue),
    ("demo", .bool config.demo)]

/-- One setting: its name, and the change that a value for it makes. -/
structure Setting where
  name : String
  read : Decoder (Config → Config)

/-- Reads an address from its text. -/
def decodeAddress : Decoder SocketAddress
  | .string text =>
      match SocketAddress.ofText? text with
      | some address => .ok address
      | none => .error .badAddress
  | found => .error (.mismatch found .address)

/-- The settings in order. -/
def settings : List Setting := [
  ⟨"name", fun found => (Decoder.text found).map fun value config =>
    { config with name := value }⟩,
  ⟨"version", fun found => (Decoder.text found).map fun value config =>
    { config with version := value }⟩,
  ⟨"selfId", fun found => (Decoder.text found).map fun value config =>
    { config with selfId := value }⟩,
  ⟨"wsAddr", fun found => (decodeAddress found).map fun value config =>
    { config with wsAddress := value }⟩,
  ⟨"tcpAddr", fun found => (decodeAddress found).map fun value config =>
    { config with tcpAddress := value }⟩,
  ⟨"httpAddr", fun found => (decodeAddress found).map fun value config =>
    { config with httpAddress := value }⟩,
  ⟨"defaultPeriodMs", fun found => (Decoder.unsigned found).map fun value config =>
    { config with defaultPeriod := value }⟩,
  ⟨"minPeriodMs", fun found => (Decoder.unsigned found).map fun value config =>
    { config with minPeriod := value }⟩,
  ⟨"ingestQueue", fun found => (Decoder.size found).map fun value config =>
    { config with ingestQueue := value }⟩,
  ⟨"sessionQueue", fun found => (Decoder.size found).map fun value config =>
    { config with sessionQueue := value }⟩,
  ⟨"demo", fun found => (Decoder.flag found).map fun value config =>
    { config with demo := value }⟩]

/-- The settings as the fields of a record, all of which may be left out. -/
def shape : Shape where
  name := "HubConfig"
  fields := settings.map fun setting => .of setting.name .optional setting.read

/-- Reads settings from a value, over the standard ones. -/
def decode : Decoder Config := fun found => do
  let row ← shape.row found
  settings.foldlM (fun config setting =>
    match Entries.get? row setting.name with
    | some value => (setting.read value).map fun change => change config
    | none => .ok config) standard

end Config

end VesselHub
