/-
Module: VesselHub.Job.Basic
Purpose: The job that serves one subscription: each run renders what the subscription covers and
  hands it over.
Main exports: Job, Job.render, Job.deliver, Job.run
-/
import VesselHub.Payload.Tracker
import VesselHub.Session.Queues
import VesselHub.Subscription.Basic

namespace VesselHub

/-- A job that runs once per period until it is cancelled. -/
structure Job where
  /-- Jobs are numbered in the order in which they were scheduled. -/
  number : Nat
  subscription : ActiveSubscription
  /-- What the last run rendered, for subscriptions to changes. -/
  tracker : Payload.Tracker
  /-- When the next run is due, in milliseconds. -/
  due : Nat
  isCancelled : Bool

namespace Job

/-- A job that is due at once. -/
def start (number : Nat) (subscription : ActiveSubscription) (due : Nat) : Job where
  number := number
  subscription := subscription
  tracker := .fresh
  due := due
  isCancelled := false

def cancel (job : Job) : Job :=
  { job with isCancelled := true }

/-- Who gets what the job renders. -/
def target (job : Job) : Target :=
  if job.subscription.isBroadcast then .everyone else .session job.subscription.session

/-- The payloads of a run on a tree without private branches, and the job that has rendered
them. -/
def render (job : Job) (tree : Tree) (resolver : Resolver) : List Json × Job :=
  let wanted := job.subscription
  match wanted.format with
  | .full => ((Payload.full? tree resolver wanted.context wanted.pattern).toList, job)
  | .delta =>
      let (deltas, tracker) := job.tracker.render tree resolver wanted.context wanted.pattern
      (deltas.map Delta.encode, { job with tracker })

/-- Hands one payload over. One that is refused is lost; the job goes on. -/
def deliver (job : Job) (sessions : Sessions) (payload : Json) :
    Step Sessions (Except DeliveryError Unit) :=
  let delivered := sessions.deliver payload job.target
  match delivered.answer with
  | .ok () => delivered
  | .error complaint =>
      { delivered with log := delivered.log ++ [.debug
          ("Route " ++ job.subscription.routeName ++ ": delivery skipped: " ++
            complaint.message)] }

/-- Hands payloads over one after the other. -/
def deliverAll (job : Job) : List Json → Sessions → Step Sessions Unit
  | [], sessions => { state := sessions, answer := () }
  | payload :: payloads, sessions =>
      let first := job.deliver sessions payload
      let rest := job.deliverAll payloads first.state
      { rest with log := first.log ++ rest.log }

/-- A run that nothing interrupts. A cancelled job does nothing. -/
def run (job : Job) (tree : Tree) (resolver : Resolver) (sessions : Sessions) :
    Step (Job × Sessions) Unit :=
  if job.isCancelled then { state := (job, sessions), answer := () }
  else
    let (payloads, rendered) := job.render tree resolver
    let delivered := job.deliverAll payloads sessions
    { state := (rendered, delivered.state), answer := (), log := delivered.log }

/-- The job after a run at `time`. -/
def reschedule (job : Job) (time : Nat) : Job :=
  { job with due := time + job.subscription.period }

/-- When the job runs until `last`: at its due time and then once per period. -/
def times (job : Job) (last : Nat) : List Nat :=
  if job.isCancelled || last < job.due then []
  else (List.range ((last - job.due) / job.subscription.period + 1)).map fun turn =>
    job.due + turn * job.subscription.period

end Job

end VesselHub
