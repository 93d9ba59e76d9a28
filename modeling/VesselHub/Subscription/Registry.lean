/-
Module: VesselHub.Subscription.Registry
Purpose: Which session subscribed to what, in the order of subscribing.
Main exports: Registry, Registry.subscribe, Registry.unsubscribe, Registry.active
-/
import VesselHub.Subscription.Basic

namespace VesselHub

/-- The subscriptions of all sessions. Sessions are in increasing order and have at least one
subscription each. -/
structure Registry where
  sessions : List (String × List ActiveSubscription)
deriving Repr

/-- What subscribing did. -/
inductive SubscribeOutcome where
  | added
  /-- A subscription with the same filter was there. -/
  | replaced (previous : ActiveSubscription)
deriving DecidableEq, Repr

namespace Registry

def empty : Registry := ⟨[]⟩

/-- The subscriptions of a session, in order. -/
def ofSession (registry : Registry) (session : String) : List ActiveSubscription :=
  (Entries.get? registry.sessions session).getD []

/-- Writes the subscriptions of a session into a sorted list of sessions. -/
def putSession (session : String) (subscriptions : List ActiveSubscription) :
    List (String × List ActiveSubscription) → List (String × List ActiveSubscription)
  | [] => [(session, subscriptions)]
  | (present, held) :: rest =>
      if present = session then (present, subscriptions) :: rest
      else if session < present then (session, subscriptions) :: (present, held) :: rest
      else (present, held) :: putSession session subscriptions rest

/-- Puts a subscription in the place of the one with the same filter, or at the end. -/
def place (subscription : ActiveSubscription) :
    List ActiveSubscription → List ActiveSubscription × SubscribeOutcome
  | [] => ([subscription], .added)
  | held :: rest =>
      if held.filter = subscription.filter then (subscription :: rest, .replaced held)
      else
        let placed := place subscription rest
        (held :: placed.1, placed.2)

/-- Adds a subscription. One of the same session and filter is replaced and keeps its place. -/
def subscribe (registry : Registry) (subscription : ActiveSubscription) :
    Registry × SubscribeOutcome :=
  let placed := place subscription (registry.ofSession subscription.session)
  (⟨putSession subscription.session placed.1 registry.sessions⟩, placed.2)

/-- Removes the subscription of a session with a filter, or all of its subscriptions, and
returns what was removed. -/
def unsubscribe (registry : Registry) (session : String) (filter : Option String) :
    Registry × List ActiveSubscription :=
  let held := registry.ofSession session
  let isGone (subscription : ActiveSubscription) : Bool :=
    match filter with
    | none => true
    | some wanted => subscription.filter == wanted
  let kept := held.filter fun subscription => !isGone subscription
  let sessions :=
    if kept.isEmpty then Entries.erase registry.sessions session
    else putSession session kept registry.sessions
  (⟨sessions⟩, held.filter isGone)

/-- Every subscription: the sessions in increasing order, their subscriptions in the order of
subscribing. -/
def active (registry : Registry) : List ActiveSubscription :=
  registry.sessions.flatMap Prod.snd

/-- The sessions that hold a subscription, in increasing order. -/
def sessionNames (registry : Registry) : List String :=
  Entries.keys registry.sessions

/-- How many subscriptions there are. -/
def size (registry : Registry) : Nat :=
  registry.active.length

def isEmpty (registry : Registry) : Bool :=
  registry.sessions.isEmpty

end Registry

end VesselHub
