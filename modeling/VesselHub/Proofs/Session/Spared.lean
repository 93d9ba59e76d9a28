/-
Module: VesselHub.Proofs.Session.Spared
Purpose: Events that leave the receiver of a registration alone and hand over nothing but payloads.
  What waits for the registration grows by the texts of the payloads that were delivered to it.
Main exports: SessionEvent.Spares, Sessions.deliveredBy, Sessions.waitingAt_perform_of_spares,
  Sessions.Spared
-/
import VesselHub.Proofs.Session.History

namespace VesselHub

/-- An event that leaves the receiver of a registration alone, and hands over nothing but payloads.
An answer to a client is a payload as well. -/
def SessionEvent.Spares (number : Nat) : SessionEvent → Prop
  | .send _ _ => False
  | .receive other _ => other ≠ number
  | .abandon other => other ≠ number
  | _ => True

namespace Sessions

variable {sessions : Sessions} {number : Nat}

/-- The payloads that an event has delivered to a registration. -/
def deliveredBy (sessions : Sessions) (number : Nat) : SessionEvent → List Json
  | .deliver session payload =>
      if Entries.get? sessions.current session = some number ∧
          (sessions.deliver payload (.session session)).answer.isOk then [payload] else []
  | .broadcast _ payload => if sessions.accepts number then [payload] else []
  | _ => []

theorem waitingAt_perform_of_spares (sound : sessions.Sound) {event : SessionEvent}
    (spares : event.Spares number) :
    (sessions.perform event).waitingAt number =
      sessions.waitingAt number ++ (sessions.deliveredBy number event).map Json.compact := by
  have conserved := conserves sound number event
  have not_received : sessions.receivedBy number event = [] := by
    cases event with
    | receive other limit => exact if_neg spares
    | _ => rfl
  have not_lost : sessions.lostBy number event = [] := by
    cases event with
    | abandon other => exact if_neg spares
    | _ => rfl
  have accepted : sessions.acceptedBy number event =
      (sessions.deliveredBy number event).map Json.compact := by
    cases event with
    | send session text => exact spares.elim
    | deliver session payload =>
        rw [acceptedBy, deliveredBy]
        split <;> rfl
    | broadcast order payload =>
        rw [acceptedBy, deliveredBy]
        split <;> rfl
    | _ => rfl
  rwa [not_received, not_lost, accepted] at conserved

/-- At most one text is taken at once. -/
theorem texts_receive_one {text : String} {rest : List String}
    (received : (sessions.receive number (some 1)).2.texts = text :: rest) : rest = [] := by
  rw [receive] at received
  split at received
  · cases received
  · rename_i mailbox _
    have short := List.length_take_le 1 mailbox.waiting
    dsimp only [Option.getD_some] at received
    rw [received, List.length_cons] at short
    exact List.eq_nil_of_length_eq_zero (by omega)

/-! ### Events one after the other -/

/-- What becomes of sessions by events that spare a registration. -/
inductive Spared (number : Nat) : Sessions → Sessions → Prop where
  | refl (sessions : Sessions) : Spared number sessions sessions
  | next {sessions after : Sessions} {event : SessionEvent} (spares : event.Spares number)
      (spared : Spared number (sessions.perform event) after) : Spared number sessions after

namespace Spared

variable {between after : Sessions}

theorem trans (first : Spared number sessions between) (second : Spared number between after) :
    Spared number sessions after := by
  induction first with
  | refl => exact second
  | next spares _ induction_step => exact .next spares (induction_step second)

theorem perform (event : SessionEvent) (spares : event.Spares number) :
    Spared number sessions (sessions.perform event) :=
  .next spares (.refl _)

theorem deliver (payload : Json) (target : Target) :
    Spared number sessions (sessions.deliver payload target).state := by
  have handed_over : ∃ event : SessionEvent, event.Spares number ∧
      sessions.perform event = (sessions.deliver payload target).state := by
    cases target with
    | session name => exact ⟨.deliver name payload, trivial, rfl⟩
    | everyone => exact ⟨.broadcast ⟨id, fun _ => .refl _⟩ payload, trivial, rfl⟩
  obtain ⟨event, spares, performed⟩ := handed_over
  exact performed ▸ perform event spares

theorem sound (spared : Spared number sessions after) (sound : sessions.Sound) : after.Sound := by
  induction spared with
  | refl => exact sound
  | next _ _ induction_step => exact induction_step (sound.perform _)

theorem length_le (spared : Spared number sessions after) (sound : sessions.Sound) :
    sessions.mailboxes.length ≤ after.mailboxes.length := by
  induction spared with
  | refl => exact Nat.le_refl _
  | next _ _ induction_step =>
      exact Nat.le_trans (grows_perform sound _).1 (induction_step (sound.perform _))

end Spared

end Sessions

end VesselHub
