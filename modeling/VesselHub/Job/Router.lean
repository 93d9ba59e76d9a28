/-
Module: VesselHub.Job.Router
Purpose: One job for each active subscription, and the clock that they run by.
Main exports: Router, Router.start, Router.stop, Router.stopSession, Router.advance
-/
import VesselHub.Job.Basic
import VesselHub.Time.Duration

namespace VesselHub

/-- The entry for the job that serves a session and a filter. -/
structure Route where
  session : String
  filter : String
  /-- The name that is shown. Two routes may have the same one. -/
  name : String
  /-- The number of the job. -/
  job : Nat
deriving DecidableEq, Repr

/-- Whether a route serves a filter of a session. -/
def Route.serves (route : Route) (session filter : String) : Bool :=
  route.session == session && route.filter == filter

/-- The jobs and the routes that they serve. -/
structure Router where
  /-- The time in milliseconds. -/
  clock : Nat
  /-- How many jobs were started so far. -/
  started : Nat
  /-- The jobs in the order of starting. Those that are cancelled stay until they are noticed. -/
  jobs : List Job
  routes : List Route
  /-- The numbers of the jobs that ask for a turn, in the order of asking. A job asks when it is
  started, when it is cancelled, and by a timer when it is due. -/
  waiting : List Nat

namespace Router

def empty : Router := ⟨0, 0, [], [], []⟩

/-- Lets jobs ask for a turn. One that has asked already keeps its place. -/
def ask (router : Router) (numbers : List Nat) : Router :=
  { router with
      waiting := router.waiting ++ numbers.filter fun number => !router.waiting.contains number }

/-- The names of the routes in increasing order. -/
def routeNames (router : Router) : List String :=
  Text.sort (router.routes.map Route.name)

def size (router : Router) : Nat :=
  router.routes.length

def isEmpty (router : Router) : Bool :=
  router.routes.isEmpty

/-- Takes routes away and cancels their jobs. -/
def remove (router : Router) (isGone : Route → Bool) : Router × List Route :=
  let gone := router.routes.filter isGone
  let numbers := gone.map Route.job
  ({ router.ask numbers with
      jobs := router.jobs.map fun job =>
        if numbers.contains job.number then job.cancel else job
      routes := router.routes.filter fun route => !isGone route }, gone)

/-- Starts the job of a subscription. A job for the same session and filter is cancelled. -/
def start (router : Router) (subscription : ActiveSubscription) : Step Router Unit :=
  let job := Job.start router.started subscription router.clock
  let (others, _) := (router.ask [job.number]).remove fun route =>
    route.serves subscription.session subscription.filter
  let route : Route := {
    session := subscription.session
    filter := subscription.filter
    name := subscription.routeName
    job := job.number }
  { state := { others with
      started := router.started + 1
      jobs := others.jobs ++ [job]
      routes := others.routes ++ [route] }
    answer := ()
    log := [.info ("Route " ++ subscription.routeName ++ " started every " ++
      Duration.text subscription.period)] }

/-- Stops the job for a filter of a session and tells whether there was one. -/
def stop (router : Router) (session filter : String) : Step Router Bool :=
  let (others, gone) := router.remove fun route => route.serves session filter
  { state := others
    answer := !gone.isEmpty
    log := gone.map fun route => .info ("Route " ++ route.name ++ " stopped") }

/-- Stops every job of a session and tells how many there were. -/
def stopSession (router : Router) (session : String) : Step Router Nat :=
  let (others, gone) := router.remove fun route => route.session == session
  { state := others
    answer := gone.length
    log := gone.map fun route => .debug ("Route " ++ route.name ++ " stopped") }

/-- Stops every job. -/
def stopAll (router : Router) : Router :=
  (router.remove fun _ => true).1

/-- Drops the cancelled jobs and tells how many there were. -/
def forgetCancelled (router : Router) : Router × Nat :=
  ({ router with jobs := router.jobs.filter fun job => !job.isCancelled },
    router.jobs.countP Job.isCancelled)

/-- The router at another time, when no job asks for a turn any more. -/
def setClock (router : Router) (clock : Nat) : Router :=
  { router with clock, waiting := [] }

/-- The runs until `last`, each with its time and the number of its job: the earliest first, and
of those at the same time the job that was started first. -/
def calls (router : Router) (last : Nat) : List (Nat × Nat) :=
  (router.jobs.flatMap fun job => (job.times last).map fun time => (time, job.number)).mergeSort
    fun first second => first.1 ≤ second.1

/-- Runs the job with a number. -/
def runJob (tree : Tree) (resolver : Resolver) (time number : Nat) :
    List Job → Sessions → Step (List Job × Sessions) Unit
  | [], sessions => { state := ([], sessions), answer := () }
  | job :: jobs, sessions =>
      if job.number = number then
        let done := job.run tree resolver sessions
        { state := (done.state.1.reschedule time :: jobs, done.state.2)
          answer := ()
          log := done.log }
      else
        let done := runJob tree resolver time number jobs sessions
        { done with state := (job :: done.state.1, done.state.2) }

/-- Makes calls one after the other. -/
def runCalls (tree : Tree) (resolver : Resolver) :
    List (Nat × Nat) → List Job × Sessions → Step (List Job × Sessions) Unit
  | [], state => { state, answer := () }
  | (time, number) :: calls, (jobs, sessions) =>
      let first := runJob tree resolver time number jobs sessions
      let rest := runCalls tree resolver calls first.state
      { rest with log := first.log ++ rest.log }

/-- Lets time pass when the clock is set by hand: the jobs run on a tree without private branches,
those that are due at the very end too, and the answer is how many runs there were. -/
def advance (router : Router) (elapsed : Nat) (tree : Tree) (resolver : Resolver)
    (sessions : Sessions) : Step (Router × Sessions) Nat :=
  let last := router.clock + elapsed
  let calls := router.calls last
  let done := runCalls tree resolver calls (router.jobs, sessions)
  { state := ({ router.setClock last with jobs := done.state.1 }, done.state.2)
    answer := calls.length
    log := done.log }

end Router

end VesselHub
