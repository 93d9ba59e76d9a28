/-
Module: VesselHub.Proofs.Job.Router
Purpose: The routes are those of the jobs that are not cancelled. Starting and stopping keep it so,
  and no job is cancelled but those whose routes are taken away.
Main exports: Router.live, Router.served, Router.Tidy, Router.Tidy.start, Router.Tidy.stop,
  Router.Tidy.stopSession, Router.Follows, Router.runCalls_standings
-/
import Mathlib.Data.List.Nodup
import VesselHub.Job.Router
import VesselHub.Proofs.Session.Current
import VesselHub.Proofs.Subscription.Registry

namespace VesselHub

/-- What identifies a route. -/
def Route.key (route : Route) : String × String :=
  (route.session, route.filter)

namespace Job

/-- The route that a job serves. -/
def route (job : Job) : Route where
  session := job.subscription.session
  filter := job.subscription.filter
  name := job.subscription.routeName
  job := job.number

/-- What runs do not change in a job. -/
def standing (job : Job) : Nat × ActiveSubscription × Bool :=
  (job.number, job.subscription, job.isCancelled)

theorem serves_route (job : Job) (subscription : ActiveSubscription) :
    job.route.serves subscription.session subscription.filter =
      (job.subscription.key == subscription.key) := by
  rw [Bool.eq_iff_iff]
  simp [route, Route.serves, ActiveSubscription.key]

theorem standing_render (job : Job) (tree : Tree) (resolver : Resolver) :
    (job.render tree resolver).2.standing = job.standing := by
  rw [render]
  cases job.subscription.format <;> rfl

theorem standing_run (job : Job) (tree : Tree) (resolver : Resolver) (sessions : Sessions) :
    (job.run tree resolver sessions).state.1.standing = job.standing := by
  rw [run]
  split
  · rfl
  · exact standing_render job tree resolver

theorem current_deliverAll (job : Job) (payloads : List Json) (sessions : Sessions) :
    (job.deliverAll payloads sessions).state.current = sessions.current := by
  induction payloads generalizing sessions with
  | nil => rfl
  | cons payload payloads induction_step =>
      have first : (job.deliver sessions payload).state.current = sessions.current := by
        rw [deliver]
        split <;> exact sessions.current_deliver payload job.target
      exact (induction_step _).trans first

theorem current_run (job : Job) (tree : Tree) (resolver : Resolver) (sessions : Sessions) :
    (job.run tree resolver sessions).state.2.current = sessions.current := by
  rw [run]
  split
  · rfl
  · exact job.current_deliverAll _ sessions

end Job

namespace Router

/-- The jobs that are not cancelled. -/
def live (router : Router) : List Job :=
  router.jobs.filter fun job => !job.isCancelled

/-- What the jobs run that are not cancelled. -/
def served (router : Router) : List ActiveSubscription :=
  router.live.map Job.subscription

/-- Every number that was given has its job, and the routes are those of the jobs that are not
cancelled. -/
structure Tidy (router : Router) : Prop where
  numbered : router.jobs.map Job.number = List.range router.started
  routed : router.routes = router.live.map Job.route

theorem tidy_empty : empty.Tidy := ⟨rfl, rfl⟩

variable {router : Router}

theorem Tidy.ask (tidy : router.Tidy) (numbers : List Nat) : (router.ask numbers).Tidy :=
  ⟨tidy.numbered, tidy.routed⟩

theorem Tidy.eq_of_number (tidy : router.Tidy) {one other : Job} (one_mem : one ∈ router.jobs)
    (other_mem : other ∈ router.jobs) (same : one.number = other.number) : one = other := by
  have distinct : (router.jobs.map Job.number).Nodup := tidy.numbered ▸ List.nodup_range
  exact List.inj_on_of_nodup_map distinct one_mem other_mem same

/-- A job without a route is cancelled. -/
theorem Tidy.cancelled_of_unrouted (tidy : router.Tidy) {job : Job} (member : job ∈ router.jobs)
    (unrouted : job.number ∉ router.routes.map Route.job) : job.isCancelled = true := by
  by_contra running
  have live : job ∈ router.live := List.mem_filter.2 ⟨member, by simpa using running⟩
  refine unrouted ?_
  rw [tidy.routed]
  exact List.mem_map.2 ⟨job.route, List.mem_map_of_mem live, rfl⟩

/-! ### Taking routes away -/

/-- Taking routes away cancels their jobs and no others. -/
theorem remove_jobs (tidy : router.Tidy) (isGone : Route → Bool) :
    (router.remove isGone).1.jobs = router.jobs.map fun job =>
      if !job.isCancelled && isGone job.route then job.cancel else job := by
  apply List.map_congr_left
  intro job job_mem
  have concerned : ((router.routes.filter isGone).map Route.job).contains job.number =
      (!job.isCancelled && isGone job.route) := by
    rw [Bool.eq_iff_iff, List.contains_iff_mem, tidy.routed]
    constructor
    · intro among
      obtain ⟨route, taken, same⟩ := List.mem_map.1 among
      obtain ⟨routed, gone⟩ := List.mem_filter.1 taken
      obtain ⟨other, other_live, rfl⟩ := List.mem_map.1 routed
      obtain ⟨other_mem, running⟩ := List.mem_filter.1 other_live
      -- The jobs are looked for by number, and a number stands for one job only.
      obtain rfl : other = job := tidy.eq_of_number other_mem job_mem same
      rw [running, gone]
      rfl
    · intro gone
      obtain ⟨running, gone⟩ := Bool.and_eq_true_iff.1 gone
      have live : job ∈ router.live := List.mem_filter.2 ⟨job_mem, running⟩
      exact List.mem_map.2
        ⟨job.route, List.mem_filter.2 ⟨List.mem_map_of_mem live, gone⟩, rfl⟩
  rw [concerned]

theorem live_remove (tidy : router.Tidy) (isGone : Route → Bool) :
    (router.remove isGone).1.live = router.live.filter fun job => !isGone job.route := by
  rw [live, remove_jobs tidy, List.filter_map, live, List.filter_filter]
  have still_running : ∀ job : Job,
      ((fun job : Job => !job.isCancelled) ∘ fun job =>
        if !job.isCancelled && isGone job.route then job.cancel else job) job =
      (!isGone job.route && !job.isCancelled) := by
    intro job
    cases running : job.isCancelled <;> cases gone : isGone job.route <;>
      simp [running, gone, Job.cancel]
  rw [List.filter_congr fun job _ => still_running job]
  refine (List.map_congr_left fun job member => ?_).trans (List.map_id _)
  have kept := (List.mem_filter.1 member).2
  simp only [Bool.and_eq_true, Bool.not_eq_true'] at kept
  simp [kept.1]

/-- A job does not run any more when its route is taken away. -/
theorem ended_by_remove (tidy : router.Tidy) {isGone : Route → Bool} {job : Job}
    (gone : isGone job.route = true) : job ∉ (router.remove isGone).1.live := by
  rw [live_remove tidy, List.mem_filter, gone]
  exact fun kept => Bool.false_ne_true kept.2

theorem Tidy.remove (tidy : router.Tidy) (isGone : Route → Bool) :
    (router.remove isGone).1.Tidy := by
  constructor
  · rw [remove_jobs tidy, List.map_map]
    refine (List.map_congr_left fun job _ => ?_).trans tidy.numbered
    rw [Function.comp_apply]
    split <;> rfl
  · have taken : (router.remove isGone).1.routes = router.routes.filter fun route =>
        !isGone route := rfl
    rw [taken, live_remove tidy, tidy.routed, List.filter_map]
    rfl

/-! ### Starting and stopping -/

/-- What starting the job of a subscription takes away. -/
def withoutRoutesOf (router : Router) (subscription : ActiveSubscription) : Router :=
  ((router.ask [router.started]).remove fun route =>
    route.serves subscription.session subscription.filter).1

theorem live_withoutRoutesOf (tidy : router.Tidy) (subscription : ActiveSubscription) :
    (router.withoutRoutesOf subscription).live =
      router.live.filter fun job => job.subscription.key != subscription.key := by
  rw [withoutRoutesOf, live_remove (tidy.ask _)]
  simp only [Job.serves_route]
  rfl

/-- Starting a job cancels the one with the same key. -/
theorem live_start (tidy : router.Tidy) (subscription : ActiveSubscription) :
    (router.start subscription).state.live =
      (router.live.filter fun job => job.subscription.key != subscription.key) ++
        [.start router.started subscription router.clock] := by
  have appended : (router.start subscription).state.live =
      (router.withoutRoutesOf subscription).live ++
        [.start router.started subscription router.clock] := List.filter_append ..
  rw [appended, live_withoutRoutesOf tidy]

theorem Tidy.start (tidy : router.Tidy) (subscription : ActiveSubscription) :
    (router.start subscription).state.Tidy := by
  have others : (router.withoutRoutesOf subscription).Tidy := (tidy.ask _).remove _
  constructor
  · have appended : (router.start subscription).state.jobs =
        (router.withoutRoutesOf subscription).jobs ++
          [.start router.started subscription router.clock] := rfl
    rw [appended, List.map_append, others.numbered]
    exact List.range_succ.symm
  · have appended : (router.start subscription).state.routes =
        (router.withoutRoutesOf subscription).routes ++
          [(Job.start router.started subscription router.clock).route] := rfl
    rw [appended, live_start tidy, List.map_append, others.routed,
      live_withoutRoutesOf tidy]
    rfl

/-- Starting the job of a subscription ends what was served under the same key. -/
theorem served_start (tidy : router.Tidy) (subscription : ActiveSubscription) :
    (router.start subscription).state.served =
      (router.served.filter fun other => other.key != subscription.key) ++ [subscription] := by
  rw [served, live_start tidy, List.map_append, served, List.filter_map]
  rfl

/-- What is served when routes are taken away that are told apart by their subscriptions. -/
theorem served_remove (tidy : router.Tidy) {isGone : Route → Bool}
    {isEnded : ActiveSubscription → Bool}
    (same : ∀ job : Job, isGone job.route = isEnded job.subscription) :
    (router.remove isGone).1.served =
      router.served.filter fun subscription => !isEnded subscription := by
  rw [served, live_remove tidy, served, List.filter_map]
  simp only [same]
  rfl

theorem Tidy.stop (tidy : router.Tidy) (session filter : String) :
    (router.stop session filter).state.Tidy :=
  tidy.remove _

theorem Tidy.stopSession (tidy : router.Tidy) (session : String) :
    (router.stopSession session).state.Tidy :=
  tidy.remove _

theorem served_stop (tidy : router.Tidy) (subscription : ActiveSubscription) :
    (router.stop subscription.session subscription.filter).state.served =
      router.served.filter fun other => other.key != subscription.key :=
  served_remove tidy fun job => job.serves_route subscription

theorem served_stopSession (tidy : router.Tidy) (session : String) :
    (router.stopSession session).state.served =
      router.served.filter fun other => other.session != session :=
  served_remove tidy fun _ => rfl

/-- No job runs anything else when routes are taken away. -/
theorem subscription_of_mem_remove (tidy : router.Tidy) (isGone : Route → Bool) {job : Job}
    (member : job ∈ (router.remove isGone).1.jobs) :
    ∃ before ∈ router.jobs, before.subscription = job.subscription := by
  rw [remove_jobs tidy] at member
  obtain ⟨before, before_mem, rfl⟩ := List.mem_map.1 member
  refine ⟨before, before_mem, ?_⟩
  split <;> rfl

theorem subscription_of_mem_start (tidy : router.Tidy) (subscription : ActiveSubscription)
    {job : Job} (member : job ∈ (router.start subscription).state.jobs) :
    job.subscription = subscription ∨
      ∃ before ∈ router.jobs, before.subscription = job.subscription := by
  rcases List.mem_append.1 member with kept | started
  · exact Or.inr (subscription_of_mem_remove (tidy.ask _) _ kept)
  · rw [List.mem_singleton.1 started]
    exact Or.inl rfl

/-! ### What becomes of a job -/

/-- A later router: its jobs go on or are cancelled, and those that run and did not before are
new. -/
structure Follows (before after : Router) : Prop where
  goes_on : ∀ job ∈ before.jobs, job ∈ after.jobs ∨ job.cancel ∈ after.jobs
  live : ∀ job ∈ after.live, job ∈ before.live ∨ before.started ≤ job.number
  started : before.started ≤ after.started

theorem Follows.refl (router : Router) : router.Follows router :=
  ⟨fun _ member => Or.inl member, fun _ live => Or.inl live, Nat.le_refl _⟩

theorem Follows.trans {between after : Router} (first : router.Follows between)
    (second : between.Follows after) : router.Follows after := by
  refine ⟨?_, ?_, Nat.le_trans first.started second.started⟩
  · intro job member
    rcases first.goes_on job member with kept | cancelled
    · exact second.goes_on job kept
    · exact Or.inr ((second.goes_on _ cancelled).elim id id)
  · intro job live
    rcases second.live job live with kept | new
    · exact first.live job kept
    · -- What is new after the second step is new after both, since numbers only grow.
      exact Or.inr (Nat.le_trans first.started new)

theorem Tidy.follows_remove (tidy : router.Tidy) (isGone : Route → Bool) :
    router.Follows (router.remove isGone).1 := by
  refine ⟨?_, ?_, Nat.le_refl _⟩
  · intro job member
    have changed := List.mem_map_of_mem
      (f := fun job => if !job.isCancelled && isGone job.route then job.cancel else job) member
    rw [← remove_jobs tidy] at changed
    split at changed
    · exact Or.inr changed
    · exact Or.inl changed
  · intro job live
    rw [live_remove tidy] at live
    exact Or.inl (List.mem_filter.1 live).1

theorem Tidy.follows_start (tidy : router.Tidy) (subscription : ActiveSubscription) :
    router.Follows (router.start subscription).state := by
  refine ⟨?_, ?_, Nat.le_succ _⟩
  · intro job member
    exact (((tidy.ask _).follows_remove _).goes_on job member).imp
      (List.mem_append_left _) (List.mem_append_left _)
  · intro job live
    rw [live_start tidy] at live
    rcases List.mem_append.1 live with kept | new
    · exact Or.inl (List.mem_filter.1 kept).1
    · rw [List.mem_singleton.1 new]
      exact Or.inr (Nat.le_refl _)

theorem Tidy.number_lt (tidy : router.Tidy) {job : Job} (member : job ∈ router.jobs) :
    job.number < router.started := by
  have numbered : job.number ∈ List.range router.started :=
    tidy.numbered ▸ List.mem_map_of_mem member
  exact List.mem_range.1 numbered

/-- A job that does not run any more is cancelled. -/
theorem Follows.cancelled {after : Router} (follows : router.Follows after) {job : Job}
    (live : job ∈ router.live) (ended : job ∉ after.live) : job.cancel ∈ after.jobs := by
  obtain ⟨member, running⟩ := List.mem_filter.1 live
  rcases follows.goes_on job member with kept | cancelled
  · exact absurd (List.mem_filter.2 ⟨kept, running⟩) ended
  · exact cancelled

/-- A job that has ended does not run again. -/
theorem Follows.stays_ended {after : Router} (follows : router.Follows after) {job : Job}
    (number : job.number < router.started) (ended : job ∉ router.live) : job ∉ after.live := by
  intro live
  rcases follows.live job live with running | new
  · exact ended running
  · exact absurd new (Nat.not_le.2 number)

/-! ### Running jobs -/

/-- Runs change neither the numbers of jobs, nor what they run, nor which are cancelled. -/
theorem runJob_standings (tree : Tree) (resolver : Resolver) (time number : Nat)
    (jobs : List Job) (sessions : Sessions) :
    (runJob tree resolver time number jobs sessions).state.1.map Job.standing =
      jobs.map Job.standing := by
  induction jobs with
  | nil => rfl
  | cons job jobs induction_step =>
      rw [runJob]
      split
      · have kept := job.standing_run tree resolver sessions
        exact congrArg (· :: jobs.map Job.standing) kept
      · exact congrArg (job.standing :: ·) induction_step

theorem runCalls_standings (tree : Tree) (resolver : Resolver) (calls : List (Nat × Nat))
    (state : List Job × Sessions) :
    (runCalls tree resolver calls state).state.1.map Job.standing =
      state.1.map Job.standing := by
  induction calls generalizing state with
  | nil => rfl
  | cons call calls induction_step =>
      exact (induction_step _).trans (runJob_standings ..)

/-- A job that is cancelled delivers nothing. -/
theorem runJob_of_cancelled {jobs : List Job} {number : Nat}
    (cancelled : ∀ job ∈ jobs, job.number = number → job.isCancelled = true) (tree : Tree)
    (resolver : Resolver) (time : Nat) (sessions : Sessions) :
    (runJob tree resolver time number jobs sessions).state.2 = sessions := by
  induction jobs with
  | nil => rfl
  | cons job jobs induction_step =>
      rw [runJob]
      split
      · rename_i same
        dsimp only
        rw [Job.run, if_pos (cancelled job List.mem_cons_self same)]
      · exact induction_step fun other member => cancelled other (List.mem_cons_of_mem _ member)

/-- Runs deliver to the sessions that are registered and leave them registered. -/
theorem runJob_current (tree : Tree) (resolver : Resolver) (time number : Nat)
    (jobs : List Job) (sessions : Sessions) :
    (runJob tree resolver time number jobs sessions).state.2.current = sessions.current := by
  induction jobs with
  | nil => rfl
  | cons job jobs induction_step =>
      rw [runJob]
      split
      · exact job.current_run tree resolver sessions
      · exact induction_step

theorem runCalls_current (tree : Tree) (resolver : Resolver) (calls : List (Nat × Nat))
    (state : List Job × Sessions) :
    (runCalls tree resolver calls state).state.2.current = state.2.current := by
  induction calls generalizing state with
  | nil => rfl
  | cons call calls induction_step =>
      exact (induction_step _).trans (runJob_current ..)

/-- What is read off the live jobs follows their standings, but for trackers and due times. -/
theorem live_map_of_standings {Read : Type} {other : Router}
    (same : other.jobs.map Job.standing = router.jobs.map Job.standing)
    (read : Nat × ActiveSubscription × Bool → Read) :
    other.live.map (read ∘ Job.standing) = router.live.map (read ∘ Job.standing) := by
  have along : ∀ jobs : List Job,
      (jobs.filter fun job => !job.isCancelled).map (read ∘ Job.standing) =
        ((jobs.map Job.standing).filter fun standing => !standing.2.2).map read := by
    intro jobs
    rw [List.filter_map, List.map_map]
    rfl
  rw [live, along, same, ← along, live]

theorem served_of_standings {other : Router}
    (same : other.jobs.map Job.standing = router.jobs.map Job.standing) :
    other.served = router.served :=
  live_map_of_standings same fun standing => standing.2.1

theorem Tidy.of_standings {other : Router} (tidy : router.Tidy)
    (same : other.jobs.map Job.standing = router.jobs.map Job.standing)
    (started : other.started = router.started) (routes : other.routes = router.routes) :
    other.Tidy := by
  constructor
  · have numbers := congrArg (List.map Prod.fst) same
    rw [List.map_map, List.map_map] at numbers
    exact numbers.trans (started ▸ tidy.numbered)
  · rw [routes, tidy.routed]
    exact (live_map_of_standings same fun standing => ({
      session := standing.2.1.session
      filter := standing.2.1.filter
      name := standing.2.1.routeName
      job := standing.1 } : Route)).symm

end Router

end VesselHub
