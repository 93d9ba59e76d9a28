/-
Module: VesselHub.Proofs.Job.Barrier
Purpose: Cancelling a job is a barrier. However the runs of the job and those who cancel it take
  their steps, one run goes on at a time, and none delivers once a cancel has returned.
Main exports: JobWorld.Guarded, JobWorld.guarded_step, JobWorld.guarded_steps,
  JobWorld.silent_steps
-/
import VesselHub.Job.Interleaving
import VesselHub.Proofs.Job.Router

namespace VesselHub.JobWorld

/-- What each action finds when it is possible, and what it leaves. -/
inductive Moves (world : JobWorld) : Action → JobWorld → Prop where
  | begin (awaiting : world.isAwaiting = true) (running : world.job.isCancelled = false) :
      Moves world .begin
        { world with isAwaiting := false, runs := world.runs ++ [.admitted] }
  | copy {run : Nat} {tree : Tree} (found : world.runs[run]? = some .admitted) :
      Moves world (.copy run tree) (world.setRun run (.copied tree.safe))
  | render {run : Nat} {tree : Tree} {resolver : Resolver}
      (found : world.runs[run]? = some (.copied tree)) :
      Moves world (.render run resolver) (world.renderRun run tree resolver)
  | refused {run : Nat} {payloads : List Json}
      (found : world.runs[run]? = some (.rendered payloads))
      (cancelled : world.job.isCancelled = true) :
      Moves world (.enter run) (world.endRun run)
  | enter {run : Nat} {payloads : List Json}
      (found : world.runs[run]? = some (.rendered payloads))
      (free : world.isGateHeld = false) (running : world.job.isCancelled = false) :
      Moves world (.enter run) (world.setRun run (.delivering payloads))
  | deliver {run : Nat} {payload : Json} {payloads : List Json}
      (found : world.runs[run]? = some (.delivering (payload :: payloads))) :
      Moves world (.deliver run) { world.setRun run (.delivering payloads) with
        sessions := (world.job.deliver world.sessions payload).state
        delivered := world.delivered ++ [payload] }
  | leave {run : Nat} (found : world.runs[run]? = some (.delivering [])) :
      Moves world (.leave run) (world.endRun run)
  | mark : Moves world .mark
      { world with job := world.job.cancel, cancels := world.cancels ++ [.marked] }
  | acquire {cancel : Nat} (found : world.cancels[cancel]? = some .marked)
      (free : world.isGateHeld = false) :
      Moves world (.acquire cancel) { world with cancels := world.cancels.set cancel .holding }
  | release {cancel : Nat} (found : world.cancels[cancel]? = some .holding) :
      Moves world (.release cancel) { world with cancels := world.cancels.set cancel .returned }

theorem moves_of_step {world next : JobWorld} {action : Action}
    (stepped : world.step action = some next) : Moves world action next := by
  cases action with
  | begin =>
      rw [step] at stepped
      split at stepped
      · cases stepped
      · rename_i possible
        cases stepped
        simp only [Bool.or_eq_true, Bool.not_eq_true', not_or, Bool.not_eq_false,
          Bool.not_eq_true] at possible
        exact .begin possible.1 possible.2
  | copy run tree =>
      rw [step] at stepped
      split at stepped
      · rename_i found
        cases stepped
        exact .copy found
      · cases stepped
  | render run resolver =>
      rw [step] at stepped
      split at stepped
      · rename_i found
        cases stepped
        exact .render found
      · cases stepped
  | enter run =>
      rw [step] at stepped
      split at stepped
      · rename_i found
        split at stepped
        · cases stepped
        · rename_i free
          split at stepped
          · rename_i cancelled
            cases stepped
            exact .refused found cancelled
          · rename_i running
            cases stepped
            exact .enter found (by simpa using free) (by simpa using running)
      · cases stepped
  | deliver run =>
      rw [step] at stepped
      split at stepped
      · rename_i found
        cases stepped
        exact .deliver found
      · cases stepped
  | leave run =>
      rw [step] at stepped
      split at stepped
      · rename_i found
        cases stepped
        exact .leave found
      · cases stepped
  | mark =>
      cases stepped
      exact .mark
  | acquire cancel =>
      rw [step] at stepped
      split at stepped
      · rename_i found
        split at stepped
        · cases stepped
        · rename_i free
          cases stepped
          exact .acquire found (by simpa using free)
      · cases stepped
  | release cancel =>
      rw [step] at stepped
      split at stepped
      · rename_i found
        cases stepped
        exact .release found
      · cases stepped

/-- What holds between the steps: the runs of a job, the holders of its gate, and the mark that it
is cancelled fit together. -/
structure Guarded (world : JobWorld) : Prop where
  /-- The job waits for its next run, or it has one. -/
  single : world.runs.length + world.isAwaiting.toNat = 1
  /-- While a run is inside the gate, nobody who cancels is. -/
  exclusive : world.runs.any isInside = true → CancelPhase.holding ∉ world.cancels
  marked : world.cancels ≠ [] → world.job.isCancelled = true
  /-- Once a cancel has returned, no run is inside the gate. -/
  closed : world.isCancelDone = true → world.runs.any isInside = false

theorem guarded_start (job : Job) (sessions : Sessions) : (start job sessions).Guarded where
  single := rfl
  exclusive := by simp [start]
  marked := by simp [start]
  closed := by simp [start]

variable {world next : JobWorld} {run cancel : Nat} {phase : RunPhase}

/-- A run that is there is the only one. -/
theorem Guarded.runs_eq (guarded : world.Guarded) (found : world.runs[run]? = some phase) :
    run = 0 ∧ world.runs = [phase] ∧ world.isAwaiting = false := by
  obtain ⟨bound, value⟩ := List.getElem?_eq_some_iff.1 found
  have single := guarded.single
  have one : world.runs.length = 1 := by omega
  obtain ⟨only, runs⟩ := List.length_eq_one_iff.1 one
  obtain rfl : run = 0 := by omega
  refine ⟨rfl, ?_, ?_⟩
  · simpa [runs] using found
  · rw [one] at single
    cases awaiting : world.isAwaiting with
    | false => rfl
    | true => simp [awaiting] at single

/-! ### Steps of runs -/

/-- Nothing depends on what is delivered, nor on what the job has rendered. -/
theorem Guarded.congr (guarded : world.Guarded) (runs : next.runs = world.runs)
    (awaiting : next.isAwaiting = world.isAwaiting) (cancels : next.cancels = world.cancels)
    (cancelled : next.job.isCancelled = world.job.isCancelled) : next.Guarded := by
  refine ⟨?_, ?_, ?_, ?_⟩
  · rw [runs, awaiting]
    exact guarded.single
  · rw [runs, cancels]
    exact guarded.exclusive
  · rw [cancels, cancelled]
    exact guarded.marked
  · rw [isCancelDone, runs, cancels]
    exact guarded.closed

theorem Guarded.endRun (guarded : world.Guarded) (found : world.runs[run]? = some phase) :
    (world.endRun run).Guarded := by
  obtain ⟨rfl, runs, _⟩ := guarded.runs_eq found
  refine ⟨?_, ?_, guarded.marked, ?_⟩ <;> simp [JobWorld.endRun, runs]

/-- A run goes on, and is inside the gate only if it was before. -/
theorem Guarded.setRun (guarded : world.Guarded) (found : world.runs[run]? = some phase)
    {after : RunPhase} (stays : isInside after = true → isInside phase = true) :
    (world.setRun run after).Guarded := by
  obtain ⟨rfl, runs, awaiting⟩ := guarded.runs_eq found
  have before : isInside after = true → world.runs.any isInside = true := by
    intro inside
    simpa [runs] using stays inside
  refine ⟨?_, ?_, guarded.marked, ?_⟩
  · simp [JobWorld.setRun, runs, awaiting]
  · intro inside
    exact guarded.exclusive (before (by simpa [JobWorld.setRun, runs] using inside))
  · intro done
    have outside := guarded.closed done
    cases inside : isInside after with
    | false => simp [JobWorld.setRun, runs, inside]
    | true => rw [before inside] at outside; cases outside

/-- A run enters the gate when nobody holds it and the job is not cancelled. -/
theorem Guarded.enter (guarded : world.Guarded) (found : world.runs[run]? = some phase)
    (running : world.job.isCancelled = false) (after : RunPhase) :
    (world.setRun run after).Guarded := by
  obtain ⟨rfl, runs, awaiting⟩ := guarded.runs_eq found
  -- Whoever cancels marks the job first, so nobody has begun to.
  have nobody : world.cancels = [] := by
    by_contra some_cancel
    exact Bool.false_ne_true (running.symm.trans (guarded.marked some_cancel))
  refine ⟨?_, ?_, guarded.marked, ?_⟩
  · simp [JobWorld.setRun, runs, awaiting]
  · simp [JobWorld.setRun, nobody]
  · simp [JobWorld.setRun, isCancelDone, nobody]

/-- The next run begins when the job waits for it. -/
theorem Guarded.begin (guarded : world.Guarded) (awaiting : world.isAwaiting = true) :
    ({ world with isAwaiting := false, runs := world.runs ++ [.admitted] } :
      JobWorld).Guarded := by
  have single := guarded.single
  rw [awaiting] at single
  have runs : world.runs = [] := List.length_eq_zero_iff.1 (Nat.succ.inj single)
  refine ⟨?_, ?_, guarded.marked, ?_⟩ <;> simp [runs, isInside]

theorem Guarded.renderRun (guarded : world.Guarded) {tree : Tree}
    (found : world.runs[run]? = some (.copied tree)) (resolver : Resolver) :
    (world.renderRun run tree resolver).Guarded := by
  have kept : (world.job.render tree resolver).2.isCancelled = world.job.isCancelled :=
    congrArg (fun standing => standing.2.2) (world.job.standing_render tree resolver)
  have rendered : ({ world with job := (world.job.render tree resolver).2 } : JobWorld).Guarded :=
    guarded.congr rfl rfl rfl kept
  rw [JobWorld.renderRun]
  dsimp only
  split
  · exact rendered.endRun found
  · exact rendered.setRun found fun inside => nomatch inside

/-! ### Steps of those who cancel -/

theorem Guarded.mark (guarded : world.Guarded) :
    ({ world with job := world.job.cancel, cancels := world.cancels ++ [.marked] } :
      JobWorld).Guarded := by
  refine ⟨guarded.single, ?_, fun _ => rfl, ?_⟩
  · intro inside
    simpa using guarded.exclusive inside
  · intro done
    exact guarded.closed (by simpa [isCancelDone] using done)

theorem Guarded.acquire (guarded : world.Guarded) (free : world.isGateHeld = false) :
    ({ world with cancels := world.cancels.set cancel .holding } : JobWorld).Guarded := by
  have outside : world.runs.any isInside = false := by
    rw [isGateHeld, Bool.or_eq_false_iff] at free
    exact free.1
  refine ⟨guarded.single, ?_, ?_, fun _ => outside⟩
  · intro inside
    exact absurd (outside.symm.trans inside) Bool.false_ne_true
  · intro some_cancel
    exact guarded.marked fun nothing => some_cancel (by simp [nothing])

theorem Guarded.release (guarded : world.Guarded)
    (found : world.cancels[cancel]? = some .holding) :
    ({ world with cancels := world.cancels.set cancel .returned } : JobWorld).Guarded := by
  have held : CancelPhase.holding ∈ world.cancels := List.mem_of_getElem? found
  have outside : world.runs.any isInside = false := by
    cases inside : world.runs.any isInside with
    | false => rfl
    | true => exact absurd held (guarded.exclusive inside)
  refine ⟨guarded.single, ?_, ?_, fun _ => outside⟩
  · intro inside
    exact absurd (outside.symm.trans inside) Bool.false_ne_true
  · intro _
    exact guarded.marked (List.ne_nil_of_mem held)

/-! ### Any steps -/

/-- Every step keeps runs, gate and mark fitting together. -/
theorem guarded_step (guarded : world.Guarded) {action : Action}
    (stepped : world.step action = some next) : next.Guarded := by
  cases moves_of_step stepped with
  | begin awaiting _ => exact guarded.begin awaiting
  | copy found => exact guarded.setRun found fun inside => nomatch inside
  | render found => exact guarded.renderRun found _
  | refused found _ => exact guarded.endRun found
  | enter found _ running => exact guarded.enter found running _
  | deliver found => exact (guarded.setRun found fun _ => rfl).congr rfl rfl rfl rfl
  | leave found => exact guarded.endRun found
  | mark => exact guarded.mark
  | acquire _ free => exact guarded.acquire free
  | release found => exact guarded.release found

theorem guarded_steps (guarded : world.Guarded) {actions : List Action}
    (stepped : world.steps actions = some next) : next.Guarded := by
  induction actions generalizing world with
  | nil =>
      cases stepped
      exact guarded
  | cons action actions induction_step =>
      obtain ⟨between, first, rest⟩ := Option.bind_eq_some_iff.1 stepped
      exact induction_step (guarded_step guarded first) rest

/-- A cancel that has returned is not undone when another one moves. -/
private theorem returned_mem_set {cancels : List CancelPhase}
    (done : CancelPhase.returned ∈ cancels)
    {before : CancelPhase} (found : cancels[cancel]? = some before)
    (differs : before ≠ .returned) (after : CancelPhase) :
    CancelPhase.returned ∈ cancels.set cancel after := by
  obtain ⟨other, other_found⟩ := List.mem_iff_getElem?.1 done
  have apart : cancel ≠ other := by
    rintro rfl
    exact differs (Option.some.inj (found.symm.trans other_found))
  exact List.mem_iff_getElem?.2 ⟨other, by rw [List.getElem?_set_ne apart, other_found]⟩

/-- What is seen of a job from outside stays as it is. -/
def SameOutside (world next : JobWorld) : Prop :=
  next.delivered = world.delivered ∧ next.sessions = world.sessions

private theorem renderRun_outside (world : JobWorld) (run : Nat) (tree : Tree)
    (resolver : Resolver) : world.SameOutside (world.renderRun run tree resolver) ∧
      (world.renderRun run tree resolver).cancels = world.cancels := by
  rw [renderRun]
  dsimp only
  split <;> exact ⟨⟨rfl, rfl⟩, rfl⟩

/-- Once a cancel has returned a step delivers nothing, and the cancel stays returned. -/
theorem silent_step (guarded : world.Guarded) (done : world.isCancelDone = true)
    {action : Action} (stepped : world.step action = some next) :
    world.SameOutside next ∧ next.isCancelDone = true := by
  have returned : CancelPhase.returned ∈ world.cancels := List.contains_iff_mem.1 done
  cases moves_of_step stepped with
  | deliver found =>
      -- Only a run inside the gate delivers, and there is none any more.
      obtain ⟨rfl, runs, _⟩ := guarded.runs_eq found
      have outside := guarded.closed done
      rw [runs] at outside
      cases outside
  | render found =>
      obtain ⟨outside, cancels⟩ := world.renderRun_outside _ _ _
      exact ⟨outside, List.contains_iff_mem.2 (cancels ▸ returned)⟩
  | mark => exact ⟨⟨rfl, rfl⟩, List.contains_iff_mem.2 (List.mem_append_left _ returned)⟩
  | acquire found _ =>
      have kept := returned_mem_set returned found nofun .holding
      exact ⟨⟨rfl, rfl⟩, List.contains_iff_mem.2 kept⟩
  | release found =>
      have kept := returned_mem_set returned found nofun .returned
      exact ⟨⟨rfl, rfl⟩, List.contains_iff_mem.2 kept⟩
  | _ => exact ⟨⟨rfl, rfl⟩, done⟩

/-- Once a cancel has returned nothing is delivered any more. -/
theorem silent_steps (guarded : world.Guarded) (done : world.isCancelDone = true)
    {actions : List Action} (stepped : world.steps actions = some next) :
    world.SameOutside next := by
  induction actions generalizing world with
  | nil =>
      cases stepped
      exact ⟨rfl, rfl⟩
  | cons action actions induction_step =>
      obtain ⟨between, first, rest⟩ := Option.bind_eq_some_iff.1 stepped
      obtain ⟨⟨delivered, sessions⟩, still_done⟩ := silent_step guarded done first
      obtain ⟨later_delivered, later_sessions⟩ :=
        induction_step (guarded_step guarded first) still_done rest
      exact ⟨later_delivered.trans delivered, later_sessions.trans sessions⟩

end VesselHub.JobWorld
