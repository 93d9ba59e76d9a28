/-
Module: VesselHub.Job.Interleaving
Purpose: The runs of one job and those who cancel it, step by step, in any order. A run delivers
  only while it holds the job's gate, and cancelling passes through the same gate.
Main exports: JobWorld, JobWorld.Action, JobWorld.step, JobWorld.steps
-/
import VesselHub.Job.Basic

namespace VesselHub

/-- Where a run of a job is. -/
inductive RunPhase where
  /-- The job was found not to be cancelled. -/
  | admitted
  /-- The run has its own copy of the tree. -/
  | copied (tree : Tree)
  /-- The payloads are ready, and the run waits for the gate. -/
  | rendered (payloads : List Json)
  /-- The run holds the gate and has these payloads left. -/
  | delivering (payloads : List Json)

/-- Where someone is who cancels the job. -/
inductive CancelPhase where
  /-- The job is marked as cancelled; the gate is yet to be passed. -/
  | marked
  /-- The gate is held. -/
  | holding
  | returned
deriving DecidableEq, Repr

/-- A job, its runs, and those who cancel it. -/
structure JobWorld where
  job : Job
  /-- Whether the job waits for its next run. -/
  isAwaiting : Bool
  /-- The runs that are not over. -/
  runs : List RunPhase
  cancels : List CancelPhase
  sessions : Sessions
  /-- The payloads that were handed over, whether or not they were accepted. -/
  delivered : List Json

namespace JobWorld

/-- One step of someone. Runs and cancels are named by their positions. -/
inductive Action where
  /-- The next run begins. -/
  | begin
  | copy (run : Nat) (tree : Tree)
  | render (run : Nat) (resolver : Resolver)
  | enter (run : Nat)
  | deliver (run : Nat)
  /-- A run that has nothing left gives the gate back. -/
  | leave (run : Nat)
  /-- Someone starts to cancel the job. -/
  | mark
  | acquire (cancel : Nat)
  | release (cancel : Nat)

/-- A job that was just scheduled. -/
def start (job : Job) (sessions : Sessions) : JobWorld :=
  { job, isAwaiting := true, runs := [], cancels := [], sessions, delivered := [] }

/-- Whether a run is inside the gate. -/
def isInside : RunPhase → Bool
  | .delivering _ => true
  | _ => false

/-- Whether someone holds the gate. -/
def isGateHeld (world : JobWorld) : Bool :=
  world.runs.any isInside || world.cancels.contains .holding

/-- A run goes on to its next phase. -/
def setRun (world : JobWorld) (run : Nat) (phase : RunPhase) : JobWorld :=
  { world with runs := world.runs.set run phase }

/-- A run is over, and the job waits for the next one. -/
def endRun (world : JobWorld) (run : Nat) : JobWorld :=
  { world with runs := world.runs.eraseIdx run, isAwaiting := true }

/-- Renders; a run without payloads is over. -/
def renderRun (world : JobWorld) (run : Nat) (tree : Tree) (resolver : Resolver) : JobWorld :=
  let (payloads, job) := world.job.render tree resolver
  let world := { world with job }
  match payloads with
  | [] => world.endRun run
  | payloads => world.setRun run (.rendered payloads)

/-- What an action does. Nothing stands for an action that is not possible now. -/
def step (world : JobWorld) : Action → Option JobWorld
  | .begin =>
      if !world.isAwaiting || world.job.isCancelled then none
      else some { world with isAwaiting := false, runs := world.runs ++ [.admitted] }
  | .copy run tree =>
      match world.runs[run]? with
      | some .admitted => some (world.setRun run (.copied tree.safe))
      | _ => none
  | .render run resolver =>
      match world.runs[run]? with
      | some (.copied tree) => some (world.renderRun run tree resolver)
      | _ => none
  | .enter run =>
      match world.runs[run]? with
      | some (.rendered payloads) =>
          if world.isGateHeld then none
          else if world.job.isCancelled then some (world.endRun run)
          else some (world.setRun run (.delivering payloads))
      | _ => none
  | .deliver run =>
      match world.runs[run]? with
      | some (.delivering (payload :: payloads)) =>
          let sent := world.job.deliver world.sessions payload
          some { world.setRun run (.delivering payloads) with
            sessions := sent.state
            delivered := world.delivered ++ [payload] }
      | _ => none
  | .leave run =>
      match world.runs[run]? with
      | some (.delivering []) => some (world.endRun run)
      | _ => none
  | .mark => some { world with job := world.job.cancel, cancels := world.cancels ++ [.marked] }
  | .acquire cancel =>
      match world.cancels[cancel]? with
      | some .marked =>
          if world.isGateHeld then none
          else some { world with cancels := world.cancels.set cancel .holding }
      | _ => none
  | .release cancel =>
      match world.cancels[cancel]? with
      | some .holding => some { world with cancels := world.cancels.set cancel .returned }
      | _ => none

/-- What actions one after the other lead to, if each is possible. -/
def steps (world : JobWorld) : List Action → Option JobWorld
  | [] => some world
  | action :: actions => (world.step action).bind fun next => next.steps actions

/-- Whether some cancel has returned. -/
def isCancelDone (world : JobWorld) : Bool :=
  world.cancels.contains .returned

end JobWorld

end VesselHub
