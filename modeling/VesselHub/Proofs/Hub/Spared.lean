/-
Module: VesselHub.Proofs.Hub.Spared
Purpose: What a hub and its jobs do to the sessions. They register and unregister sessions and hand
  payloads over; they never receive what waits, and no receiver goes away with it.
Main exports: Hub.spared_perform, Hub.spared_ingest
-/
import VesselHub.Proofs.Hub.Clients
import VesselHub.Proofs.Session.Spared

namespace VesselHub

open Sessions (Spared)

variable {number : Nat}

/-! ### Jobs -/

namespace Job

theorem spared_deliver (job : Job) (sessions : Sessions) (payload : Json) :
    Spared number sessions (job.deliver sessions payload).state := by
  rw [deliver]
  split <;> exact .deliver payload job.target

theorem spared_deliverAll (job : Job) (payloads : List Json) (sessions : Sessions) :
    Spared number sessions (job.deliverAll payloads sessions).state := by
  induction payloads generalizing sessions with
  | nil => exact .refl sessions
  | cons payload payloads induction_step =>
      exact (job.spared_deliver sessions payload).trans (induction_step _)

theorem spared_run (job : Job) (tree : Tree) (resolver : Resolver) (sessions : Sessions) :
    Spared number sessions (job.run tree resolver sessions).state.2 := by
  rw [run]
  split
  · exact .refl sessions
  · exact job.spared_deliverAll _ sessions

end Job

namespace Router

theorem spared_runJob (tree : Tree) (resolver : Resolver) (time called : Nat) (jobs : List Job)
    (sessions : Sessions) :
    Spared number sessions (runJob tree resolver time called jobs sessions).state.2 := by
  induction jobs with
  | nil => exact .refl sessions
  | cons job jobs induction_step =>
      rw [runJob]
      split
      · exact job.spared_run tree resolver sessions
      · exact induction_step

theorem spared_runCalls (tree : Tree) (resolver : Resolver) (calls : List (Nat × Nat))
    (state : List Job × Sessions) :
    Spared number state.2 (runCalls tree resolver calls state).state.2 := by
  induction calls generalizing state with
  | nil => exact .refl state.2
  | cons call calls induction_step =>
      exact (spared_runJob tree resolver call.1 call.2 state.1 state.2).trans (induction_step _)

end Router

/-! ### Hubs -/

namespace Hub

theorem sessions_subscribe (hub : Hub) (session : String) (request : SubscribeRequest) :
    (hub.subscribe session request).state.sessions = hub.sessions := by
  by_cases admits : hub.Admits session
  · rw [subscribe_of_admits admits]
    exact (subscribeEntries_admitting _ _ _ hub []).2
  · rw [(subscribe_of_not_admits admits request).1]

theorem sessions_apply (hub : Hub) (now : Instant) (message : Json) :
    (hub.apply now message).state.sessions = hub.sessions := by
  rw [Hub.apply]
  split <;> rfl

private theorem sessions_merge (hub : Hub) (now : Instant) (message : Json) :
    (hub.merge now message).state.sessions = hub.sessions := by
  have applied := hub.sessions_apply now message
  rw [merge]
  split <;> exact applied

theorem spared_of_eq {hub after : Hub} (same : after.sessions = hub.sessions) :
    Spared number hub.sessions after.sessions :=
  same ▸ .refl _

theorem spared_perform (hub : Hub) (event : HubEvent) :
    Spared number hub.sessions (hub.perform event).sessions := by
  cases event with
  | openSession session => exact .perform (.register session) trivial
  | closeSession session => exact .perform (.unregister session) trivial
  | subscribe session request => exact spared_of_eq (hub.sessions_subscribe session request)
  | subscribeBroadcast request => exact spared_of_eq (hub.sessions_subscribe _ request)
  | unsubscribe session request => exact .refl _
  | apply now message => exact spared_of_eq (hub.sessions_apply now message)
  | runJobs calls => exact Router.spared_runCalls _ _ calls (hub.router.jobs, hub.sessions)
  | advance elapsed => exact Router.spared_runCalls _ _ _ (hub.router.jobs, hub.sessions)

/-- An answer is a payload for the session that has asked. -/
theorem spared_reply (hub : Hub) (session : String) (message : ServerMessage) :
    Spared number hub.sessions (hub.reply session message).1.sessions :=
  .deliver message.encode (.session session)

theorem spared_dispatch (hub : Hub) (now : Instant) (session : Option String)
    (message : Inbound) :
    Spared number hub.sessions (hub.dispatch now session message).state.sessions := by
  have for_session : ∀ (kind : String) (act : String → Step Hub (Except HubError Unit)),
      (∀ name, Spared number hub.sessions (act name).state.sessions) →
        Spared number hub.sessions (hub.forSession kind session act).state.sessions := by
    intro kind act acts
    cases session with
    | none => exact .refl _
    | some name => exact acts name
  cases message with
  | document value => exact spared_of_eq (hub.sessions_merge now value)
  | delta value => exact spared_of_eq (hub.sessions_merge now value)
  | get request => exact for_session _ _ fun name => hub.spared_reply name _
  | list request => exact for_session _ _ fun name => hub.spared_reply name _
  | subscribe request =>
      exact for_session _ _ fun name => spared_of_eq (hub.sessions_subscribe name request)
  | unsubscribe request => exact for_session _ _ fun _ => .refl _

theorem spared_ingest (hub : Hub) (now : Instant) (inbound : InboundText) :
    Spared number hub.sessions (hub.ingest now inbound).state.sessions := by
  rw [state_ingest, process]
  split
  · exact .refl _
  · exact hub.spared_dispatch now inbound.session _

end Hub

end VesselHub
