/-
Module: VesselHub.Subscription.Basic
Purpose: Active subscriptions: their periods, patterns and names.
Main exports: PeriodPolicy, ActiveSubscription, ActiveSubscription.ofRequest, InitialMode
-/
import VesselHub.Message.Request
import VesselHub.Path.Pattern

namespace VesselHub

/-- The name of the session whose subscriptions serve every consumer. -/
def broadcastSession : String := "*"

/-- How the periods that are asked for become those that are used, in milliseconds. -/
structure PeriodPolicy where
  default : Nat
  min : Nat
deriving DecidableEq, Repr

namespace PeriodPolicy

def standard : PeriodPolicy := ⟨1000, 100⟩

/-- A wanted period is raised to the shortest one; without one the default is used as it is. -/
def period (policy : PeriodPolicy) : Option Nat → Nat
  | some wanted => max wanted policy.min
  | none => policy.default

theorem min_le_period_some (policy : PeriodPolicy) (wanted : Nat) :
    policy.min ≤ policy.period (some wanted) :=
  Nat.le_max_right wanted policy.min

end PeriodPolicy

/-- An active subscription of one session. -/
structure ActiveSubscription where
  session : String
  /-- The context as it was asked for. -/
  context : String
  /-- The text of the pattern, which identifies the subscription within its session. -/
  filter : String
  period : Nat
  format : Format
  pattern : Pattern
deriving DecidableEq, Repr

namespace ActiveSubscription

/-- The subscription that an entry of a request stands for. -/
def ofRequest (policy : PeriodPolicy) (session context : String) (entry : Subscription) :
    Except PatternError ActiveSubscription :=
  (Pattern.ofText entry.path).map fun pattern =>
    { session, context
      filter := entry.path
      period := policy.period entry.period
      format := entry.format.getD .delta
      pattern }

/-- The name under which the delivery of a subscription is shown. -/
def routeName (subscription : ActiveSubscription) : String :=
  "sub_" ++ subscription.session ++ "_" ++ subscription.filter

def isBroadcast (subscription : ActiveSubscription) : Bool :=
  subscription.session == broadcastSession

end ActiveSubscription

/-- What a consumer is subscribed to when it connects. -/
inductive InitialMode where
  /-- The local vessel. -/
  | own
  /-- Every vessel. -/
  | all
  /-- Nothing. -/
  | off
deriving DecidableEq, Repr

namespace InitialMode

def ofValue (value : String) : InitialMode :=
  if value = "all" then .all else if value = "none" then .off else .own

/-- The mode that the first parameter `subscribe` of a query asks for. -/
def ofQuery : Option String → InitialMode
  | none => .own
  | some query =>
      let found := (Text.split '&' query).findSome? fun parameter =>
        match Text.splitOnce '=' parameter with
        | some ("subscribe", value) => some (ofValue value)
        | _ => none
      found.getD .own

/-- The request that a mode stands for. -/
def request : InitialMode → Option SubscribeRequest
  | .own => some (everythingOf "vessels.self")
  | .all => some (everythingOf "vessels.*")
  | .off => none
where
  everythingOf (context : String) : SubscribeRequest :=
    { context, subscriptions := [{ path := "*", period := none, format := none }] }

end InitialMode

end VesselHub
