/-
Module: VesselHub.Hub.Basic
Purpose: One hub: the model, the subscriptions, the sessions, and the jobs that deliver.
Main exports: Hub, Hub.ofConfig, Hub.subscribe, Hub.unsubscribe, Hub.closeSession, Hub.advance,
  Hub.elapse
-/
import VesselHub.Config.Basic
import VesselHub.Job.Turns
import VesselHub.Message.Inbound
import VesselHub.Model.Apply
import VesselHub.Query
import VesselHub.Subscription.Registry

namespace VesselHub

/-- Everything that one hub holds. -/
structure Hub where
  config : Config
  model : Model
  registry : Registry
  sessions : Sessions
  router : Router

/-- Why the hub could not do what it was asked for. -/
inductive HubError where
  | badConfig (cause : ConfigError)
  | notAMessage (cause : MessageError)
  | notApplied (cause : ApplyError)
  | notDelivered (cause : DeliveryError)
  /-- A request of this kind needs a session that it comes from. -/
  | noSession (kind : String)
  | sessionClosed (session : String)
  /-- Nobody takes inbound messages any more. -/
  | ingestClosed

/-- The wording of a complaint. -/
def HubError.message : HubError → String
  | .badConfig cause => "configuration error: " ++ cause.message
  | .notAMessage cause => cause.message
  | .notApplied cause => cause.message
  | .notDelivered cause => cause.message
  | .noSession kind => kind ++ " requires a session"
  | .sessionClosed session => "session " ++ session ++ " is closed"
  | .ingestClosed => "ingestion queue closed"

/-- How the periods of subscriptions are chosen. -/
def Config.periods (config : Config) : PeriodPolicy :=
  ⟨config.defaultPeriod, config.minPeriod⟩

/-- The name of an outcome in the log. -/
def SubscribeOutcome.name : SubscribeOutcome → String
  | .added => "added"
  | .replaced _ => "replaced"

namespace Hub

/-- The hub with some settings, whose model holds the branch of the local vessel. -/
def fresh (config : Config) : Hub where
  config := config
  model := .ofSelf config.selfId
  registry := .empty
  sessions := .ofCapacity config.sessionQueue
  router := .empty

/-- A hub for settings that meet their conditions. -/
def ofConfig (config : Config) : Except HubError Hub :=
  match config.validate with
  | .ok () => .ok (fresh config)
  | .error cause => .error (.badConfig cause)

/-- What is logged when a hub is made. -/
def creationLog (hub : Hub) : List LogLine :=
  [.info ("Hub created for " ++ hub.config.selfContext)]

/-- The greeting to a new consumer. -/
def hello (hub : Hub) (timestamp : String) : Hello :=
  .ofHub hub.config.name hub.config.version hub.config.selfContext timestamp

/-! ### The model -/

/-- Applies a document or a delta. -/
def apply (hub : Hub) (now : Instant) (message : Json) :
    Step Hub (Except ApplyError MergeReport) :=
  let log := hub.model.applyLog now message
  match hub.model.apply now message with
  | .ok (model, report) => { state := { hub with model }, answer := .ok report, log }
  | .error cause => { state := hub, answer := .error cause, log }

/-- Deletes the child under a key of the branch at a path and tells whether it was there. -/
def delete (hub : Hub) (path key : String) : Hub × Bool :=
  let (model, removed) := hub.model.deleteAt path key
  ({ hub with model }, removed)

def get (hub : Hub) (request : GetRequest) : Json :=
  hub.model.get request

def list (hub : Hub) (request : ListRequest) : PathList :=
  hub.model.list request

def document (hub : Hub) : Json :=
  hub.model.document

/-! ### Sessions and subscriptions -/

/-- Registers a session and yields the number of its registration. -/
def openSession (hub : Hub) (session : String) : Step Hub Nat :=
  let registered := hub.sessions.register session
  { state := { hub with sessions := registered.state }
    answer := registered.answer
    log := registered.log ++ [.info ("Session " ++ session ++ " opened")] }

/-- Forgets a session with its subscriptions and its jobs. -/
def closeSession (hub : Hub) (session : String) : Step Hub Unit :=
  let (registry, removed) := hub.registry.unsubscribe session none
  let stopped := hub.router.stopSession session
  let unregistered := hub.sessions.unregister session
  { state := { hub with
      registry
      router := stopped.state
      sessions := unregistered.state }
    answer := ()
    log := stopped.log ++ unregistered.log ++ [.info
      ("Session " ++ session ++ " closed (" ++ Json.countText removed.length ++
        " subscriptions, " ++ Json.countText stopped.answer ++ " jobs)")] }

/-- Registers one subscription of a request and starts its job. One whose path is no pattern is
skipped. -/
def subscribeEntry (hub : Hub) (session context : String) (entry : Subscription) :
    Step Hub (Option SubscribeOutcome) :=
  match ActiveSubscription.ofRequest hub.config.periods session context entry with
  | .error cause =>
      { state := hub
        answer := none
        log := [.warn ("Session " ++ session ++ ": rejected subscription " ++
          Text.quote entry.path ++ ": " ++ cause.message)] }
  | .ok subscription =>
      let started := hub.router.start subscription
      let (registry, outcome) := hub.registry.subscribe subscription
      { state := { hub with router := started.state, registry }
        answer := some outcome
        log := started.log ++ [.debug ("Session " ++ session ++ ": subscribed " ++
          entry.path ++ " (" ++ outcome.name ++ ")")] }

/-- Registers subscriptions one after the other. -/
def subscribeEntries (session context : String) :
    List Subscription → Hub → Step Hub (List SubscribeOutcome)
  | [], hub => { state := hub, answer := [] }
  | entry :: entries, hub =>
      let first := hub.subscribeEntry session context entry
      let rest := subscribeEntries session context entries first.state
      { state := rest.state
        answer := first.answer.toList ++ rest.answer
        log := first.log ++ rest.log }

/-- Registers the subscriptions of a request. A session that is not registered is refused, except
for the one that stands for all. -/
def subscribe (hub : Hub) (session : String) (request : SubscribeRequest) :
    Step Hub (Except HubError (List SubscribeOutcome)) :=
  if session ≠ broadcastSession ∧ !hub.sessions.contains session then
    { state := hub
      answer := .error (.sessionClosed session)
      log := [.warn ("Session " ++ session ++ ": subscribe after close ignored")] }
  else
    let done := subscribeEntries session request.context request.subscriptions hub
    { state := done.state, answer := .ok done.answer, log := done.log }

/-- Subscribes on behalf of every session. -/
def subscribeBroadcast (hub : Hub) (request : SubscribeRequest) :
    Step Hub (Except HubError (List SubscribeOutcome)) :=
  hub.subscribe broadcastSession request

/-- Removes what the paths of a request name from the registry. -/
def removeSubscriptions (session : String) :
    List String → Registry → Registry × List ActiveSubscription
  | [], registry => (registry, [])
  | path :: paths, registry =>
      let filter := if UnsubscribeRequest.namesEverything path then none else some path
      let (registry, removed) := registry.unsubscribe session filter
      let (registry, others) := removeSubscriptions session paths registry
      (registry, removed ++ others)

/-- Stops the jobs of subscriptions. -/
def stopJobs : List ActiveSubscription → Router → Step Router Unit
  | [], router => { state := router, answer := () }
  | subscription :: subscriptions, router =>
      let first := router.stop subscription.session subscription.filter
      let rest := stopJobs subscriptions first.state
      { rest with log := first.log ++ rest.log }

/-- Removes subscriptions of a session and tells how many they were. -/
def unsubscribe (hub : Hub) (session : String) (request : UnsubscribeRequest) :
    Step Hub Nat :=
  let (registry, removed) := removeSubscriptions session request.paths hub.registry
  let stopped := stopJobs removed hub.router
  { state := { hub with registry, router := stopped.state }
    answer := removed.length
    log := stopped.log ++ [.debug ("Session " ++ session ++ ": " ++
      Json.countText removed.length ++ " subscriptions removed")] }

/-- Every active subscription. -/
def subscriptions (hub : Hub) : List ActiveSubscription :=
  hub.registry.active

/-- Sends a message to one session. -/
def reply (hub : Hub) (session : String) (message : ServerMessage) :
    Hub × Except HubError Unit :=
  let (sessions, result) := hub.sessions.send session message.encode.compact
  ({ hub with sessions }, result.mapError .notDelivered)

/-! ### Jobs -/

/-- The hub after a step of its router and its sessions. -/
def afterJobs {Answer : Type} (hub : Hub) (done : Step (Router × Sessions) Answer) :
    Step Hub Answer :=
  { done with state := { hub with router := done.state.1, sessions := done.state.2 } }

/-- Lets time pass, in milliseconds, by a clock that is set by hand, and tells how many runs the
jobs had. -/
def advance (hub : Hub) (elapsed : Nat) : Step Hub Nat :=
  hub.afterJobs
    (hub.router.advance elapsed hub.model.tree.safe hub.model.resolver hub.sessions)

/-- Makes some runs of jobs, each with its time and the number of the job. -/
def runCalls (hub : Hub) (calls : List (Nat × Nat)) : Step Hub Unit :=
  let done := Router.runCalls hub.model.tree.safe hub.model.resolver calls
    (hub.router.jobs, hub.sessions)
  hub.afterJobs { done with state := ({ hub.router with jobs := done.state.1 }, done.state.2) }

/-- Lets time pass, in milliseconds, by the timer. -/
def elapse (hub : Hub) (elapsed : Nat) : Step Hub Unit :=
  hub.afterJobs (hub.router.elapse elapsed hub.model.tree.safe hub.model.resolver hub.sessions)

/-- Every job that asks for a turn takes it. -/
def takeTurns (hub : Hub) : Step Hub Unit :=
  hub.afterJobs (hub.router.takeTurns hub.model.tree.safe hub.model.resolver hub.sessions)

/-- Drops the jobs that were cancelled and tells how many they were. -/
def forgetCancelled (hub : Hub) : Hub × Nat :=
  let (router, count) := hub.router.forgetCancelled
  ({ hub with router }, count)

/-- Stops every job. -/
def shutdown (hub : Hub) : Step Hub Unit :=
  { state := { hub with router := hub.router.stopAll }
    answer := ()
    log := [.info "Hub stopped"] }

end Hub

end VesselHub
