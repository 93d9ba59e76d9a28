/-
Module: VesselHub.Hub.Process
Purpose: What the hub does with an inbound text: read it, tell what it is, and merge it, answer
  it, or change the subscriptions of its session.
Main exports: InboundText, Hub.process, Hub.ingest, Hub.ingestBatch
-/
import VesselHub.Hub.Basic

namespace VesselHub

/-- An inbound text and the session that it came from. Feeds have none. -/
structure InboundText where
  session : Option String
  text : String
deriving DecidableEq, Repr

namespace Hub

/-- Does something for the session of a request, which has to have one. -/
def forSession (hub : Hub) (kind : String) (session : Option String)
    (act : String → Step Hub (Except HubError Unit)) : Step Hub (Except HubError Unit) :=
  match session with
  | some name => act name
  | none => { state := hub, answer := .error (.noSession kind) }

/-- Sends an answer to the session of a request. -/
def answerTo (hub : Hub) (session : String) (message : ServerMessage) :
    Step Hub (Except HubError Unit) :=
  let (hub, result) := hub.reply session message
  { state := hub, answer := result }

/-- Merges a document or a delta. Values that are skipped do not make the message fail. -/
def merge (hub : Hub) (now : Instant) (message : Json) : Step Hub (Except HubError Unit) :=
  let done := hub.apply now message
  match done.answer with
  | .error cause => { done with answer := .error (.notApplied cause) }
  | .ok report =>
      let notice : List LogLine :=
        if report.rejected = 0 then []
        else [.warn (Json.countText report.rejected ++ " values rejected, " ++
          Json.countText report.applied ++ " applied")]
      { done with answer := .ok (), log := done.log ++ notice }

/-- Does what a message says. -/
def dispatch (hub : Hub) (now : Instant) (session : Option String) (message : Inbound) :
    Step Hub (Except HubError Unit) :=
  match message with
  | .document value => hub.merge now value
  | .delta value => hub.merge now value
  | .get request =>
      hub.forSession message.kind session fun name =>
        hub.answerTo name (.full (hub.get request))
  | .list request =>
      hub.forSession message.kind session fun name =>
        hub.answerTo name (.pathList (hub.list request))
  | .subscribe request =>
      hub.forSession message.kind session fun name =>
        let done := hub.subscribe name request
        { done with answer := done.answer.map fun _ => () }
  | .unsubscribe request =>
      hub.forSession message.kind session fun name =>
        let done := hub.unsubscribe name request
        { done with answer := .ok () }

/-- Deals with an inbound text. -/
def process (hub : Hub) (now : Instant) (inbound : InboundText) :
    Step Hub (Except HubError Unit) :=
  match Inbound.ofText inbound.text with
  | .error cause => { state := hub, answer := .error (.notAMessage cause) }
  | .ok message =>
      let done := hub.dispatch now inbound.session message
      { done with log := .debug ("Inbound " ++ message.kind ++ " from " ++
          Text.quoteOption inbound.session) :: done.log }

/-- Deals with an inbound text for which nobody waits: a complaint is only logged. -/
def ingest (hub : Hub) (now : Instant) (inbound : InboundText) : Step Hub Unit :=
  let done := hub.process now inbound
  match done.answer with
  | .ok () => { done with answer := () }
  | .error cause =>
      { done with
        answer := ()
        log := done.log ++ [.warn ("Inbound message rejected: " ++ cause.message)] }

/-- Deals with inbound texts in the order of their arrival. -/
def ingestAll (now : Instant) : List InboundText → Hub → Step Hub Unit
  | [], hub => { state := hub, answer := () }
  | inbound :: rest, hub =>
      let first := hub.ingest now inbound
      let others := ingestAll now rest first.state
      { others with log := first.log ++ others.log }

/-- How many of some texts are taken at once: all of them if the sender waits for room, else as
many as may wait. -/
def taken (capacity : Nat) (isWaiting : Bool) (count : Nat) : Nat :=
  if isWaiting then count else min count (max capacity 1)

/-- Deals with texts as they find room in a queue: as many as may wait are dealt with at once, and
then the sender and the jobs have their turn. At most `rounds` of them are necessary. -/
def ingestInRounds (now : Instant) (capacity : Nat) (turns : Hub → Step Hub Unit) :
    Nat → List InboundText → Hub → Step Hub Unit
  | 0, texts, hub => ingestAll now texts hub
  | rounds + 1, texts, hub =>
      let room := max capacity 1
      if texts.length ≤ room then ingestAll now texts hub
      else
        ((ingestAll now (texts.take room) hub).andThen turns).andThen
          (ingestInRounds now capacity turns rounds (texts.drop room))

/-- A worker is started, gets texts until no more are sent, and ends. Whenever it waits, and before
and after it, `turns` is what the jobs do. The answer tells for each text whether it was taken. -/
def ingestBatch (hub : Hub) (now : Instant) (turns : Hub → Step Hub Unit) (capacity : Nat)
    (isWaiting : Bool) (texts : List InboundText) : Step Hub (List (Except HubError Unit)) :=
  let count := taken capacity isWaiting texts.length
  let before := turns hub
  let done := ingestInRounds now capacity turns count (texts.take count) before.state
  let after := turns done.state
  { state := after.state
    answer := List.replicate count (.ok ()) ++
      List.replicate (texts.length - count) (.error .ingestClosed)
    log := before.log ++ .info "Ingestion worker started" :: done.log ++
      .info "Ingestion worker stopped" :: after.log }

end Hub

end VesselHub
