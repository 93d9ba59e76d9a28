/-
Module: VesselHub.Proofs.Hub.Refused
Purpose: A text that is refused leaves no trace. What can be wrong with a text is listed beside the
  function that deals with it: each complaint comes from one of five places, and all of them are
  before the first change. The two readers that tell documents and deltas apart agree.
Main exports: Hub.Refuses, Hub.answer_process_error_iff, Hub.state_process_of_refuses,
  Hub.accepted, Hub.state_ingestAll_accepted, Hub.refused_leaves_no_trace
-/
import VesselHub.Hub.Process
import VesselHub.Proofs.Hub.InStep
import VesselHub.Proofs.Session.Delivery

namespace VesselHub

namespace Inbound

/-- Whether a message is a request, which has to come from a session. -/
def isRequest : Inbound → Bool
  | .document _ | .delta _ => false
  | .get _ | .list _ | .subscribe _ | .unsubscribe _ => true

/-- Only requests are read further when a message is classified. -/
private theorem ne_of_mapError {Request : Type} {read : Except Json.Misfit Request}
    {make : Request → Inbound} (requests : ∀ request, (make request).isRequest = true)
    {message : Inbound} (quiet : message.isRequest = false) :
    (read.map make).mapError MessageError.misfit ≠ .ok message := by
  cases read with
  | error cause => exact nofun
  | ok request =>
      intro same
      cases same
      rw [requests request] at quiet
      cases quiet

/-- What is no request is the value itself: a document if it has vessels, else a delta, which has a
context. -/
theorem classify_not_request {value : Json} {message : Inbound}
    (classified : classify value = .ok message) (quiet : message.isRequest = false) :
    message = .document value ∧ (value.member? vesselsKey).isSome = true ∨
      message = .delta value ∧ (value.member? vesselsKey).isSome = false ∧
        (value.member? "context").isSome = true := by
  cases value with
  | object members =>
      rw [classify] at classified
      split at classified
      case isTrue vessels =>
        cases classified
        exact .inl ⟨rfl, vessels⟩
      case isFalse no_vessels =>
        repeat' split at classified
        · exact absurd classified (ne_of_mapError (fun _ => rfl) quiet)
        · exact absurd classified (ne_of_mapError (fun _ => rfl) quiet)
        · exact absurd classified (ne_of_mapError (fun _ => rfl) quiet)
        · exact absurd classified (ne_of_mapError (fun _ => rfl) quiet)
        · rename_i context
          cases classified
          exact .inr ⟨rfl, by simpa [Json.member?, Entries.contains] using no_vessels, context⟩
        · cases classified
  | null | bool | number | string | array => cases classified

theorem ofText_not_request {text : String} {message : Inbound}
    (read : ofText text = .ok message) (quiet : message.isRequest = false) :
    (∃ value, message = .document value ∧ (value.member? vesselsKey).isSome = true) ∨
      ∃ value, message = .delta value ∧ (value.member? vesselsKey).isSome = false ∧
        (value.member? "context").isSome = true := by
  rw [ofText] at read
  split at read
  · rename_i value _
    rcases classify_not_request read quiet with document | delta
    · exact .inl ⟨value, document⟩
    · exact .inr ⟨value, delta⟩
  · cases read

end Inbound

namespace Model

variable {model : Model} {now : Instant} {message : Json}

theorem apply_of_vessels (vessels : (message.member? vesselsKey).isSome = true) :
    model.apply now message = .ok (model.merge message, .ofDocument) := by
  rw [apply, if_pos vessels]

theorem apply_of_context (no_vessels : (message.member? vesselsKey).isSome = false)
    (context : (message.member? "context").isSome = true) :
    model.apply now message =
      ((Delta.decode message).map (model.applyDelta now)).mapError .malformed := by
  have has_context := Option.isSome_iff_ne_none.1 context
  rw [apply, if_neg (by simp [no_vessels]), if_neg (by simpa using has_context)]
  cases Delta.decode message <;> rfl

/-- The model takes what has vessels or a context for a document or a delta. -/
theorem apply_ne_notADelta (model : Model) (now : Instant)
    (known : (message.member? vesselsKey).isSome = true ∨
      (message.member? "context").isSome = true) :
    model.apply now message ≠ .error .notADelta := by
  by_cases vessels : (message.member? vesselsKey).isSome = true
  · rw [apply_of_vessels vessels]
    exact nofun
  · rw [apply_of_context (Bool.eq_false_iff.2 vessels) (known.resolve_left vessels)]
    cases Delta.decode message <;> exact nofun

end Model

namespace Hub

/-- What is answered to a request for values or paths. -/
def answer? (hub : Hub) : Inbound → Option ServerMessage
  | .get request => some (.full (hub.get request))
  | .list request => some (.pathList (hub.list request))
  | _ => none

/-- Why a hub refuses an inbound text. -/
inductive Refuses (hub : Hub) (inbound : InboundText) : HubError → Prop where
  /-- The text is no JSON, no object, no message that is known, or a malformed request. -/
  | unread {cause : MessageError} (read : Inbound.ofText inbound.text = .error cause) :
      Refuses hub inbound (.notAMessage cause)
  | malformed {value : Json} {cause : Json.Misfit}
      (read : Inbound.ofText inbound.text = .ok (.delta value))
      (misfit : Delta.decode value = .error cause) :
      Refuses hub inbound (.notApplied (.malformed cause))
  | anonymous {message : Inbound} (read : Inbound.ofText inbound.text = .ok message)
      (request : message.isRequest = true) (session : inbound.session = none) :
      Refuses hub inbound (.noSession message.kind)
  | afterClose {request : SubscribeRequest} {name : String}
      (read : Inbound.ofText inbound.text = .ok (.subscribe request))
      (session : inbound.session = some name) (absent : ¬ hub.Admits name) :
      Refuses hub inbound (.sessionClosed name)
  | undelivered {message : Inbound} {answer : ServerMessage} {name : String}
      {cause : DeliveryError} (read : Inbound.ofText inbound.text = .ok message)
      (answered : hub.answer? message = some answer) (session : inbound.session = some name)
      (full : (hub.sessions.send name answer.encode.compact).2 = .error cause) :
      Refuses hub inbound (.notDelivered cause)

variable {hub : Hub} {now : Instant} {inbound : InboundText} {message : Inbound}

/-! ### One kind of message at a time -/

theorem process_of_read (hub : Hub) (now : Instant)
    (read : Inbound.ofText inbound.text = .ok message) :
    (hub.process now inbound).answer = (hub.dispatch now inbound.session message).answer ∧
      (hub.process now inbound).state = (hub.dispatch now inbound.session message).state := by
  rw [process, read]
  exact ⟨rfl, rfl⟩

theorem dispatch_anonymous (request : message.isRequest = true) :
    hub.dispatch now none message =
      { state := hub, answer := .error (.noSession message.kind) } := by
  cases message with
  | document | delta => cases request
  | get | list | subscribe | unsubscribe => rfl

private theorem answer_merge_of_vessels {value : Json}
    (vessels : (value.member? vesselsKey).isSome = true) :
    (hub.merge now value).answer = .ok () := by
  simp [merge, apply, Model.apply_of_vessels vessels]

theorem merge_of_context (hub : Hub) (now : Instant) {value : Json}
    (no_vessels : (value.member? vesselsKey).isSome = false)
    (context : (value.member? "context").isSome = true) :
    (hub.merge now value).answer =
        ((Delta.decode value).map fun _ => ()).mapError (.notApplied ∘ .malformed) ∧
      (∀ cause, Delta.decode value = .error cause → (hub.merge now value).state = hub) := by
  cases decoded : Delta.decode value with
  | error cause =>
      have applied : hub.model.apply now value = .error (.malformed cause) := by
        rw [Model.apply_of_context no_vessels context, decoded]
        rfl
      simp [merge, apply, applied, Except.map, Except.mapError]
  | ok delta =>
      have applied : hub.model.apply now value = .ok (hub.model.applyDelta now delta) := by
        rw [Model.apply_of_context no_vessels context, decoded]
        rfl
      simp [merge, apply, applied, Except.map, Except.mapError]

theorem answerTo_spec (hub : Hub) (name : String) (answer : ServerMessage) :
    (hub.answerTo name answer).answer =
        (hub.sessions.send name answer.encode.compact).2.mapError .notDelivered ∧
      (∀ cause, (hub.sessions.send name answer.encode.compact).2 = .error cause →
        (hub.answerTo name answer).state = hub) := by
  refine ⟨rfl, fun cause refused => ?_⟩
  have same := Sessions.send_refused refused
  rw [answerTo, reply]
  simp only [same]

theorem dispatch_of_answer {answer : ServerMessage} (answered : hub.answer? message = some answer)
    (name : String) : hub.dispatch now (some name) message = hub.answerTo name answer := by
  cases message with
  | get | list =>
      cases answered
      rfl
  | document | delta | subscribe | unsubscribe => cases answered

theorem dispatch_subscribe (hub : Hub) (now : Instant) (request : SubscribeRequest)
    (name : String) :
    (hub.dispatch now (some name) (.subscribe request)).answer =
        (hub.subscribe name request).answer.map (fun _ => ()) ∧
      (hub.dispatch now (some name) (.subscribe request)).state =
        (hub.subscribe name request).state :=
  ⟨rfl, rfl⟩

private theorem answer_subscribe_of_admits {name : String} (admits : hub.Admits name)
    (request : SubscribeRequest) :
    ∃ outcomes, (hub.subscribe name request).answer = .ok outcomes := by
  have admitted : ¬ (name ≠ broadcastSession ∧ (!hub.sessions.contains name) = true) := by
    rcases admits with broadcast | present
    · exact fun refused => refused.1 broadcast
    · simp [present]
  rw [Hub.subscribe, if_neg admitted]
  exact ⟨_, rfl⟩

/-! ### Every kind of message -/

theorem process_of_refuses {cause : HubError} (refuses : hub.Refuses inbound cause) :
    (hub.process now inbound).answer = .error cause ∧ (hub.process now inbound).state = hub := by
  cases refuses with
  | unread read =>
      rw [process, read]
      exact ⟨rfl, rfl⟩
  | malformed read misfit =>
      obtain ⟨answer, state⟩ := process_of_read hub now read
      rcases Inbound.ofText_not_request read rfl with
        ⟨_, document, _⟩ | ⟨_, same, no_vessels, context⟩
      · cases document
      · cases same
        obtain ⟨merged, unchanged⟩ := merge_of_context hub now no_vessels context
        rw [misfit] at merged
        exact ⟨answer.trans merged, state.trans (unchanged _ misfit)⟩
  | anonymous read request session =>
      obtain ⟨answer, state⟩ := process_of_read hub now read
      rw [session, dispatch_anonymous request] at answer state
      exact ⟨answer, state⟩
  | afterClose read session absent =>
      obtain ⟨answer, state⟩ := process_of_read hub now read
      rw [session] at answer state
      obtain ⟨unchanged, refused⟩ := subscribe_of_not_admits absent _
      obtain ⟨dispatched, after⟩ := dispatch_subscribe hub now _ _
      rw [dispatched, refused] at answer
      exact ⟨answer, state.trans (after.trans unchanged)⟩
  | undelivered read answered session full =>
      obtain ⟨answer, state⟩ := process_of_read hub now read
      rw [session, dispatch_of_answer answered] at answer state
      obtain ⟨sent, unchanged⟩ := hub.answerTo_spec _ _
      rw [sent, full] at answer
      exact ⟨answer, state.trans (unchanged _ full)⟩

/-- A request that has a session fails because the session is closed or its queue takes nothing. -/
theorem refuses_named {cause : HubError} {name : String}
    (read : Inbound.ofText inbound.text = .ok message) (request : message.isRequest = true)
    (session : inbound.session = some name)
    (refused : (hub.dispatch now (some name) message).answer = .error cause) :
    hub.Refuses inbound cause := by
  have unanswered {answer : ServerMessage} (answered : hub.answer? message = some answer) :
      hub.Refuses inbound cause := by
    rw [dispatch_of_answer answered, (hub.answerTo_spec name answer).1] at refused
    cases full : (hub.sessions.send name answer.encode.compact).2 with
    | ok _ =>
        rw [full] at refused
        cases refused
    | error undelivered =>
        rw [full] at refused
        cases refused
        exact .undelivered read answered session full
  cases message with
  | document | delta => cases request
  | get | list => exact unanswered rfl
  | subscribe asked =>
      by_cases admits : hub.Admits name
      · obtain ⟨outcomes, subscribed⟩ := answer_subscribe_of_admits admits asked
        rw [(dispatch_subscribe hub now asked name).1, subscribed] at refused
        cases refused
      · rw [(dispatch_subscribe hub now asked name).1,
          (subscribe_of_not_admits admits asked).2] at refused
        cases refused
        exact .afterClose read session admits
  | unsubscribe asked => cases refused

theorem refuses_of_answer {cause : HubError}
    (refused : (hub.process now inbound).answer = .error cause) : hub.Refuses inbound cause := by
  cases read : Inbound.ofText inbound.text with
  | error unread =>
      rw [process, read] at refused
      cases refused
      exact .unread read
  | ok message =>
      rw [(process_of_read hub now read).1] at refused
      cases request : message.isRequest with
      | false =>
          rcases Inbound.ofText_not_request read request with
            ⟨value, rfl, vessels⟩ | ⟨value, rfl, no_vessels, context⟩
          · have merged := (answer_merge_of_vessels vessels).symm.trans refused
            cases merged
          · have merged := (merge_of_context hub now no_vessels context).1.symm.trans refused
            cases misfit : Delta.decode value with
            | error malformed =>
                rw [misfit] at merged
                cases merged
                exact .malformed read misfit
            | ok delta =>
                rw [misfit] at merged
                cases merged
      | true =>
          cases session : inbound.session with
          | none =>
              rw [session, dispatch_anonymous request] at refused
              cases refused
              exact .anonymous read request session
          | some name =>
              rw [session] at refused
              exact refuses_named read request session refused

/-- A text is refused exactly for one of the five reasons. -/
theorem answer_process_error_iff {cause : HubError} :
    (hub.process now inbound).answer = .error cause ↔ hub.Refuses inbound cause :=
  ⟨refuses_of_answer, fun refuses => (process_of_refuses refuses).1⟩

theorem state_process_of_refuses {cause : HubError} (refuses : hub.Refuses inbound cause) :
    (hub.process now inbound).state = hub :=
  (process_of_refuses refuses).2

/-- Whatever a text is refused for, the hub is as it was: its model, its subscriptions, its jobs,
its sessions and their queues. What is classified as a document or as a delta is one for the
model, too. -/
theorem refused_leaves_no_trace (hub : Hub) (now : Instant) (inbound : InboundText) :
    (∀ cause, (hub.process now inbound).answer = .error cause →
      (hub.process now inbound).state = hub ∧ hub.Refuses inbound cause) ∧
    ∀ value, Inbound.ofText inbound.text = .ok (.document value) ∨
        Inbound.ofText inbound.text = .ok (.delta value) →
      ∀ model : Model, model.apply now value ≠ .error .notADelta := by
  constructor
  · intro cause refused
    have refuses := refuses_of_answer refused
    exact ⟨state_process_of_refuses refuses, refuses⟩
  · intro value read model
    refine model.apply_ne_notADelta now ?_
    rcases read with read | read
    · rcases Inbound.ofText_not_request read rfl with ⟨_, same, vessels⟩ | ⟨_, delta, _⟩
      · cases same
        exact .inl vessels
      · cases delta
    · rcases Inbound.ofText_not_request read rfl with ⟨_, document, _⟩ | ⟨_, same, _, context⟩
      · cases document
      · cases same
        exact .inr context

/-- A request for the paths of the local vessel. -/
def listSelf : String := "\x7b\"context\":\"vessels.self\",\"list\":[]\x7d"

/-- A hub with one named vessel. Its only session may have one text waiting and has it. -/
def crowdedDeck : Hub :=
  let named : Json := .object [("vessels", .object [("self", .object
    [("name", .object [("value", .string "Gull")])])])]
  let opened := (fresh { Config.standard with sessionQueue := 1 }).run
    [.openSession "deck", .apply ⟨0, 0⟩ named]
  (opened.process ⟨0, 0⟩ ⟨some "deck", listSelf⟩).state

/-- A session that is asked to take a second text refuses it, and the hub stays as it was, with the
first text waiting. -/
theorem crowdedDeck_keeps_its_text :
    (crowdedDeck.process ⟨0, 0⟩ ⟨some "deck", listSelf⟩).answer =
        .error (.notDelivered (.notKeepingUp "deck")) ∧
      (crowdedDeck.process ⟨0, 0⟩ ⟨some "deck", listSelf⟩).state = crowdedDeck ∧
      crowdedDeck.sessions.mailboxes.map (·.waiting.length) = [1] :=
  have refused : (crowdedDeck.process ⟨0, 0⟩ ⟨some "deck", listSelf⟩).answer =
      .error (.notDelivered (.notKeepingUp "deck")) := by rfl
  ⟨refused, ((refused_leaves_no_trace crowdedDeck ⟨0, 0⟩ _).1 _ refused).1, by decide +kernel⟩

/-! ### Many texts -/

/-- The texts that are not refused when they are dealt with in order. -/
def accepted (now : Instant) : List InboundText → Hub → List InboundText
  | [], _ => []
  | inbound :: rest, hub =>
      match (hub.process now inbound).answer with
      | .ok () => inbound :: accepted now rest (hub.process now inbound).state
      | .error _ => accepted now rest hub

theorem state_ingest (hub : Hub) (now : Instant) (inbound : InboundText) :
    (hub.ingest now inbound).state = (hub.process now inbound).state := by
  cases answered : (hub.process now inbound).answer <;> simp only [ingest, answered]

private theorem state_ingestAll_cons (now : Instant) (inbound : InboundText)
    (rest : List InboundText) (hub : Hub) :
    (ingestAll now (inbound :: rest) hub).state =
      (ingestAll now rest (hub.process now inbound).state).state := by
  rw [ingestAll, ← state_ingest]

/-- The texts that are refused could as well not have come. -/
theorem state_ingestAll_accepted (now : Instant) (texts : List InboundText) (hub : Hub) :
    (ingestAll now (accepted now texts hub) hub).state = (ingestAll now texts hub).state := by
  induction texts generalizing hub with
  | nil => rfl
  | cons inbound rest induction_step =>
      rw [state_ingestAll_cons, accepted]
      split
      case h_1 => rw [state_ingestAll_cons, induction_step]
      case h_2 cause refused =>
        rw [state_process_of_refuses (refuses_of_answer refused), induction_step]

end Hub

end VesselHub
