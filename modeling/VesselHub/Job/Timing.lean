/-
Module: VesselHub.Job.Timing
Purpose: When a periodic job that works for a while runs, and what becomes of its effects once it
  is cancelled.
Main exports: Workload, Workload.runsUntil, Workload.record
-/

namespace VesselHub

/-- What a periodic job has to do. All times are in milliseconds. -/
structure Workload where
  period : Nat
  /-- How long the runs take, over and over again. A run takes no time if nothing is given. -/
  busy : List Nat
deriving DecidableEq, Repr

/-- One run of a job. -/
structure JobRun where
  started : Nat
  finished : Nat
deriving DecidableEq, Repr

/-- What a job notes down. -/
inductive JobNote where
  | start (time : Nat)
  /-- The work of a run took effect. -/
  | effect (time : Nat)
  /-- The job was cancelled before the work of a run could take effect. -/
  | refused (time : Nat)
deriving DecidableEq, Repr

namespace Workload

/-- How late a run may start and still count as being on time. -/
def tolerance : Nat := 5

/-- The deadline after one that was met at `fired`. A run that comes too late skips the deadlines
that have gone by. -/
def nextDeadline (period deadline fired : Nat) : Nat :=
  if fired ≤ deadline + tolerance then deadline + period
  else fired + period - (fired - deadline) % period

/-- How long the run with a number takes. -/
def busyTime (workload : Workload) (run : Nat) : Nat :=
  (workload.busy[run % workload.busy.length]?).getD 0

/-- The runs from a deadline on that start no later than `last`. A run starts at its deadline, or
as soon as the previous one is finished. -/
def runsFrom (workload : Workload) (last : Nat) : Nat → Nat → Nat → Nat → List JobRun
  | 0, _, _, _ => []
  | fuel + 1, run, deadline, free =>
      let started := max deadline free
      if last < started then []
      else
        let finished := started + workload.busyTime run
        let deadline := nextDeadline workload.period deadline started
        ⟨started, finished⟩ :: workload.runsFrom last fuel (run + 1) deadline finished

/-- The runs of a job that was scheduled at time 0. The deadlines increase, so there are no more
runs than moments. -/
def runsUntil (workload : Workload) (last : Nat) : List JobRun :=
  workload.runsFrom last (last + 1) 0 0 0

/-- Whether a time comes before the job is cancelled. -/
def isBefore (time : Nat) : Option Nat → Bool
  | none => true
  | some cancelled => time < cancelled

/-- The runs of a job that is cancelled at some time: none starts afterwards. -/
def runsBefore (workload : Workload) (cancelled : Option Nat) (last : Nat) : List JobRun :=
  (workload.runsUntil last).filter fun run => isBefore run.started cancelled

/-- When a job that is cancelled at `cancelled` is done: its last run is not interrupted. -/
def settled (workload : Workload) (cancelled : Nat) : Nat :=
  (workload.runsBefore (some cancelled) cancelled).foldl (fun time run => max time run.finished)
    cancelled

/-- What a job notes down until `last` if it is cancelled at some time. -/
def record (workload : Workload) (cancelled : Option Nat) (last : Nat) : List JobNote :=
  (workload.runsBefore cancelled last).flatMap fun run =>
    let outcome : JobNote :=
      if isBefore run.finished cancelled then .effect run.finished else .refused run.finished
    .start run.started :: if run.finished ≤ last then [outcome] else []

end Workload

/-- What happens to the jobs of a timetable. -/
inductive JobEvent where
  /-- Time passes. -/
  | wait
  /-- A job is cancelled. -/
  | cancel (job : Nat)
  /-- A job is cancelled and given up. -/
  | drop (job : Nat)
  /-- A job is cancelled, waited for and given up. -/
  | shutdown (job : Nat)
deriving DecidableEq, Repr

/-- The job that an event is about. -/
def JobEvent.job? : JobEvent → Option Nat
  | .wait => none
  | .cancel job | .drop job | .shutdown job => some job

/-- Jobs that were all scheduled at time 0. -/
structure Timetable where
  workloads : List Workload
  now : Nat
  /-- When jobs were cancelled. -/
  cancelled : List (Nat × Nat)
  /-- The jobs that were given up. -/
  released : List Nat
deriving Repr

namespace Timetable

def start (workloads : List Workload) : Timetable := ⟨workloads, 0, [], []⟩

/-- Whether anything can still be done to a job. -/
def holds (timetable : Timetable) (job : Nat) : Bool :=
  job < timetable.workloads.length && !timetable.released.contains job

/-- Gives a job up. -/
def release (timetable : Timetable) (job : Nat) : Timetable :=
  { timetable with released := job :: timetable.released }

/-- When a job was cancelled. -/
def cancelledAt (timetable : Timetable) (job : Nat) : Option Nat :=
  timetable.cancelled.lookup job

/-- Cancels a job now. A job that is cancelled already stays so from before. -/
def cancel (timetable : Timetable) (job : Nat) : Timetable :=
  match timetable.cancelledAt job with
  | some _ => timetable
  | none => { timetable with cancelled := (job, timetable.now) :: timetable.cancelled }

/-- The time at which a cancelled job is done. -/
def settled (timetable : Timetable) (job : Nat) : Nat :=
  match timetable.cancelledAt job, timetable.workloads[job]? with
  | some cancelled, some workload => max timetable.now (workload.settled cancelled)
  | _, _ => timetable.now

/-- What an event does now. -/
def act (timetable : Timetable) : JobEvent → Timetable
  | .wait => timetable
  | .cancel job => timetable.cancel job
  | .drop job => (timetable.cancel job).release job
  | .shutdown job =>
      let cancelled := timetable.cancel job
      { cancelled.release job with now := cancelled.settled job }

/-- An event at a time, or as soon as the previous event is over. Nothing but waiting happens if
the job was given up before. -/
def step (timetable : Timetable) (time : Nat) (event : JobEvent) : Timetable :=
  let timetable := { timetable with now := max timetable.now time }
  if event.job?.all timetable.holds then timetable.act event else timetable

/-- What the jobs have noted down by now. -/
def records (timetable : Timetable) : List (List JobNote) :=
  timetable.workloads.zipIdx.map fun (workload, job) =>
    workload.record (timetable.cancelledAt job) timetable.now

end Timetable

end VesselHub
