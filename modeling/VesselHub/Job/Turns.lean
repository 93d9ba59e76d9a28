/-
Module: VesselHub.Job.Turns
Purpose: Run the jobs by a timer. A job gets a turn when it was started, when it was cancelled, and
  whenever a period is over; turns are taken one after the other, in the order of asking.
Main exports: Router.takeTurns, Router.elapse
-/
import VesselHub.Job.Router

namespace VesselHub.Router

/-- A turn of the job with a number: if it was cancelled it ends, else it runs. -/
def takeTurn (tree : Tree) (resolver : Resolver) (number : Nat) (router : Router)
    (sessions : Sessions) : Step (Router × Sessions) Unit :=
  match router.jobs.find? fun job => job.number == number with
  | none => .still (router, sessions)
  | some job =>
      if job.isCancelled then
        let jobs := router.jobs.filter fun other => other.number != number
        { state := ({ router with jobs }, sessions)
          answer := ()
          log := [.debug "Job stopped"] }
      else
        let done := runJob tree resolver router.clock number router.jobs sessions
        { done with state := ({ router with jobs := done.state.1 }, done.state.2) }

/-- Turns of jobs one after the other. -/
def takeTurnsOf (tree : Tree) (resolver : Resolver) :
    List Nat → Router × Sessions → Step (Router × Sessions) Unit
  | [], state => .still state
  | number :: numbers, (router, sessions) =>
      (takeTurn tree resolver number router sessions).andThen
        (takeTurnsOf tree resolver numbers)

/-- Every job that asks for a turn takes it, while no time passes. -/
def takeTurns (router : Router) (tree : Tree) (resolver : Resolver) (sessions : Sessions) :
    Step (Router × Sessions) Unit :=
  takeTurnsOf tree resolver router.waiting ({ router with waiting := [] }, sessions)

/-- The router with its jobs in the order in which those that are due at the same time ask for
their turns: the one that has slept longest is the first. -/
def byPatience (router : Router) : Router :=
  { router with
      jobs := router.jobs.mergeSort fun first second =>
        second.subscription.period ≤ first.subscription.period }

/-- The runs before `last`, each with its time and the number of its job. -/
def timerCalls (router : Router) (last : Nat) : List (Nat × Nat) :=
  router.byPatience.calls (last - 1)

/-- The jobs that are due at a time, in the order of asking. -/
def dueAt (router : Router) (time : Nat) : List Nat :=
  (router.byPatience.jobs.filter fun job => job.due == time && !job.isCancelled).map Job.number

/-- Lets time pass by the timer. The jobs that ask for a turn take it first, then each job runs
whenever it is due. A job that is due at the very end still waits for its turn then, and if no time
passes nothing happens at all. -/
def elapse (router : Router) (elapsed : Nat) (tree : Tree) (resolver : Resolver)
    (sessions : Sessions) : Step (Router × Sessions) Unit :=
  if elapsed = 0 then .still (router, sessions)
  else
    (router.takeTurns tree resolver sessions).andThen fun (router, sessions) =>
      let last := router.clock + elapsed
      let done := runCalls tree resolver (router.timerCalls last) (router.jobs, sessions)
      let ended : Router := { router with clock := last, jobs := done.state.1 }
      { done with state := (ended.ask (ended.dueAt last), done.state.2) }

end VesselHub.Router
