/-
Module: VesselHub.Proofs.Hub.Cancelling
Purpose: Whatever ends a job, be it unsubscribing, subscribing anew, closing the session, stopping
  everything, or losing its handle, cancels it, and a cancelled job delivers nothing.
Main exports: CancelCause, CancelCause.Concerns, CancelCause.cancels, CancelCause.is_barrier
-/
import VesselHub.Proofs.Hub.InStep
import VesselHub.Proofs.Job.Barrier

namespace VesselHub

/-- What cancels jobs. -/
inductive CancelCause where
  | unsubscribe (session : String) (request : UnsubscribeRequest)
  /-- Subscribing to what a job serves already. -/
  | resubscribe (session : String) (request : SubscribeRequest)
  | closeSession (session : String)
  | stopAll
  /-- The handle of the job with a number is dropped. -/
  | dropHandle (number : Nat)

namespace CancelCause

/-- The hub after the jobs that are concerned were cancelled. -/
def act (hub : Hub) : CancelCause → Hub
  | unsubscribe session request => (hub.unsubscribe session request).state
  | resubscribe session request => (hub.subscribe session request).state
  | closeSession session => (hub.closeSession session).state
  | stopAll => hub.shutdown.state
  | dropHandle number =>
      { hub with router := (hub.router.remove fun route => route.job == number).1 }

/-- Whether a job is to be cancelled. -/
def Concerns (job : Job) : CancelCause → Prop
  | unsubscribe session request => job.subscription.session = session ∧
      ∃ path ∈ request.paths,
        UnsubscribeRequest.namesEverything path = true ∨ path = job.subscription.filter
  | resubscribe session request => job.subscription.session = session ∧
      ∃ entry ∈ request.subscriptions, entry.path = job.subscription.filter
  | closeSession session => job.subscription.session = session
  | stopAll => True
  | dropHandle number => job.number = number

end CancelCause

namespace Hub

variable {hub : Hub}

/-! ### What is left after unsubscribing -/

/-- What a path of a request stands for. -/
private theorem takes_of_names {session path : String} {subscription : ActiveSubscription}
    (owner : subscription.session = session)
    (named : UnsubscribeRequest.namesEverything path = true ∨ path = subscription.filter) :
    Registry.takes session (if UnsubscribeRequest.namesEverything path then none else some path)
      subscription = true := by
  rcases named with everything | same
  · simp [Registry.takes, everything, owner]
  · split <;> simp [Registry.takes, owner, same]

/-- Nothing is left that a path of the request names. -/
private theorem not_mem_removeSubscriptions {registry : Registry} (wellFormed : registry.WellFormed)
    {session path : String} {paths : List String} (listed : path ∈ paths)
    {subscription : ActiveSubscription} (owner : subscription.session = session)
    (named : UnsubscribeRequest.namesEverything path = true ∨ path = subscription.filter) :
    subscription ∉ (removeSubscriptions session paths registry).1.active := by
  induction paths generalizing registry with
  | nil => cases listed
  | cons first paths induction_step =>
      rw [removeSubscriptions]
      have after := Registry.wellFormed_unsubscribe wellFormed session
        (if UnsubscribeRequest.namesEverything first then none else some first)
      rcases List.mem_cons.1 listed with rfl | later
      · intro left
        have kept := (Registry.active_unsubscribe wellFormed session
          (if UnsubscribeRequest.namesEverything path then none else some path)).1
        have still := (removeSubscriptions_perm after session paths).2.symm.subset
          (List.mem_append_right _ left)
        rw [kept, List.mem_filter, takes_of_names owner named] at still
        exact Bool.false_ne_true still.2
      · exact induction_step after later

theorem follows_stopJobs {router : Router} (tidy : router.Tidy)
    (removed : List ActiveSubscription) : router.Follows (stopJobs removed router).state := by
  induction removed generalizing router with
  | nil => exact .refl router
  | cons subscription removed induction_step =>
      exact (tidy.follows_remove _).trans
        (induction_step (tidy.stop subscription.session subscription.filter))

/-! ### Subscribing anew -/

theorem follows_subscribeEntry (coherent : hub.Coherent) (session context : String)
    (entry : Subscription) :
    hub.router.Follows (hub.subscribeEntry session context entry).state.router := by
  rw [subscribeEntry]
  split
  · exact .refl hub.router
  · exact coherent.router.follows_start _

theorem follows_subscribeEntries (coherent : hub.Coherent) (periods : ValidPeriods hub.config)
    {session : String} (admits : hub.Admits session) (context : String)
    (entries : List Subscription) :
    hub.router.Follows (subscribeEntries session context entries hub).state.router := by
  induction entries generalizing hub with
  | nil => exact .refl hub.router
  | cons entry entries induction_step =>
      have first := coherent.subscribeEntry periods admits context entry
      obtain ⟨config, sessions⟩ := subscribeEntry_keeps hub session context entry
      refine (follows_subscribeEntry coherent session context entry).trans ?_
      refine induction_step first (config ▸ periods) ?_
      rwa [Admits, sessions]

/-- An entry for the filter of a job that runs ends the job. -/
theorem ended_by_subscribeEntry (coherent : hub.Coherent) {job : Job}
    (live : job ∈ hub.router.live) (context : String) {entry : Subscription}
    (same : entry.path = job.subscription.filter) :
    job ∉ (hub.subscribeEntry job.subscription.session context entry).state.router.live := by
  have registered : job.subscription ∈ hub.registry.active :=
    coherent.served.subset (List.mem_map_of_mem live)
  have parsed := coherent.parsed _ registered
  rw [subscribeEntry, ActiveSubscription.ofRequest, same, parsed]
  intro still
  rw [Except.map, Router.live_start coherent.router] at still
  rcases List.mem_append.1 still with kept | new
  · have other_key := (List.mem_filter.1 kept).2
    simp [ActiveSubscription.key] at other_key
  · have number : job.number = hub.router.started :=
      congrArg Job.number (List.mem_singleton.1 new)
    have below := coherent.router.number_lt (List.mem_filter.1 live).1
    omega

theorem ended_by_subscribeEntries (coherent : hub.Coherent) (periods : ValidPeriods hub.config)
    {job : Job} (live : job ∈ hub.router.live) (context : String) {entry : Subscription}
    {entries : List Subscription} (listed : entry ∈ entries)
    (same : entry.path = job.subscription.filter) :
    job ∉ (subscribeEntries job.subscription.session context entries hub).state.router.live := by
  induction entries generalizing hub with
  | nil => cases listed
  | cons first entries induction_step =>
      have admits := coherent.admitted _ (coherent.served.subset (List.mem_map_of_mem live))
      have number := coherent.router.number_lt (List.mem_filter.1 live).1
      have after := coherent.subscribeEntry periods admits context first
      obtain ⟨config, sessions⟩ :=
        subscribeEntry_keeps hub job.subscription.session context first
      have later_periods := config.symm ▸ periods
      have later_admits :
          (hub.subscribeEntry job.subscription.session context first).state.Admits
            job.subscription.session := by
        rwa [Admits, sessions]
      -- An earlier entry may have ended the job already; later ones do not bring it back.
      by_cases still :
          job ∈ (hub.subscribeEntry job.subscription.session context first).state.router.live
      · rcases List.mem_cons.1 listed with rfl | later
        · exact absurd still (ended_by_subscribeEntry coherent live context same)
        · exact induction_step after later_periods still later
      · have onwards := follows_subscribeEntries after later_periods later_admits context entries
        have follows := follows_subscribeEntry coherent job.subscription.session context first
        exact onwards.stays_ended (Nat.lt_of_lt_of_le number follows.started) still

end Hub

namespace CancelCause

open Hub

variable {hub : Hub} {job : Job}

/-- Causes let the jobs go on or cancel them. -/
theorem follows_act (coherent : hub.Coherent) (periods : ValidPeriods hub.config)
    (cause : CancelCause) : hub.router.Follows (cause.act hub).router := by
  cases cause with
  | unsubscribe session request => exact follows_stopJobs coherent.router _
  | resubscribe session request =>
      by_cases admits : hub.Admits session
      · rw [act, subscribe_of_admits admits]
        exact follows_subscribeEntries coherent periods admits _ _
      · rw [act, (subscribe_of_not_admits admits request).1]
        exact .refl hub.router
  | closeSession session => exact coherent.router.follows_remove _
  | stopAll => exact coherent.router.follows_remove _
  | dropHandle number => exact coherent.router.follows_remove _

/-- A job that is concerned does not run any more. -/
theorem ended (coherent : hub.Coherent) (periods : ValidPeriods hub.config)
    {cause : CancelCause} (live : job ∈ hub.router.live) (concerns : cause.Concerns job) :
    job ∉ (cause.act hub).router.live := by
  have registered : job.subscription ∈ hub.registry.active :=
    coherent.served.subset (List.mem_map_of_mem live)
  cases cause with
  | unsubscribe session request =>
      obtain ⟨owner, path, listed, named⟩ := concerns
      intro still
      have left := (coherent.unsubscribe session request).served.subset (List.mem_map_of_mem still)
      exact not_mem_removeSubscriptions coherent.registry listed owner named left
  | resubscribe session request =>
      obtain ⟨rfl, entry, listed, same⟩ := concerns
      rw [act, subscribe_of_admits (coherent.admitted _ registered)]
      exact ended_by_subscribeEntries coherent periods live request.context listed same
  | closeSession session => exact Router.ended_by_remove coherent.router (beq_iff_eq.2 concerns)
  | stopAll => exact Router.ended_by_remove coherent.router rfl
  | dropHandle number => exact Router.ended_by_remove coherent.router (beq_iff_eq.2 concerns)

theorem tidy_act (coherent : hub.Coherent) (periods : ValidPeriods hub.config)
    (cause : CancelCause) : (cause.act hub).router.Tidy := by
  cases cause with
  | unsubscribe session request => exact (coherent.unsubscribe session request).router
  | resubscribe session request => exact (coherent.subscribe periods session request).router
  | closeSession session => exact (coherent.closeSession session).router
  | stopAll => exact coherent.router.remove _
  | dropHandle number => exact coherent.router.remove _

/-- A job that is concerned is cancelled. -/
theorem cancels (coherent : hub.Coherent) (periods : ValidPeriods hub.config)
    {cause : CancelCause} (live : job ∈ hub.router.live) (concerns : cause.Concerns job) :
    ∀ after ∈ (cause.act hub).router.jobs, after.number = job.number → after = job.cancel := by
  have follows := follows_act coherent periods cause
  have cancelled := follows.cancelled live (ended coherent periods live concerns)
  intro after member same
  exact (tidy_act coherent periods cause).eq_of_number member cancelled same

/-- Cancelling is a barrier. Whatever cancels a job that runs leaves it marked, so that its later
runs reach no session. However the runs that were under way and those who cancel the job take
their steps, at most one run goes on at a time, and once a cancel has returned nothing more is
delivered. -/
theorem is_barrier {config : Config} (made : Hub.ofConfig config = .ok hub)
    (events : List HubEvent) {cause : CancelCause}
    (live : job ∈ (hub.run events).router.live) (concerns : cause.Concerns job)
    {sessions : Sessions} {actions : List JobWorld.Action} {world : JobWorld}
    (reached : (JobWorld.start job sessions).steps actions = some world) :
    job.cancel ∈ (cause.act (hub.run events)).router.jobs ∧
      (∀ tree resolver time found, (Router.runJob tree resolver time job.number
        (cause.act (hub.run events)).router.jobs found).state.2 = found) ∧
      world.runs.length ≤ 1 ∧
      (world.isCancelDone = true → ∀ more later, world.steps more = some later →
        later.delivered = world.delivered ∧ later.sessions = world.sessions) := by
  obtain ⟨fresh, periods, rfl⟩ := fresh_of_ofConfig made
  obtain ⟨coherent, config⟩ := fresh.run periods events
  have all_cancelled := cancels coherent (config ▸ periods) live concerns
  have guarded := JobWorld.guarded_steps (JobWorld.guarded_start job sessions) reached
  refine ⟨?_, ?_, ?_, ?_⟩
  · exact (follows_act coherent (config ▸ periods) cause).cancelled live
      (ended coherent (config ▸ periods) live concerns)
  · intro tree resolver time found
    refine Router.runJob_of_cancelled ?_ tree resolver time found
    intro after member same
    rw [all_cancelled after member same]
    rfl
  · have single := guarded.single
    omega
  · intro done more later stepped
    exact JobWorld.silent_steps guarded done stepped

/-- One session subscribes to everything of the local vessel. -/
def watchDeck : List HubEvent :=
  [.openSession "deck", .subscribe "deck"
    { context := "vessels.self", subscriptions := [⟨"*", none, some .full⟩] }]

def watchedDeck : Hub := (fresh .standard).run watchDeck

def watchedSpeed : Tree :=
  .object [(vesselsKey, .object [(Config.standard.resolver.selfId, .object
    [("speed", .leaf ⟨.bool true, none, none⟩)])])]

/-- A run that is cancelled after it has entered the gate. It delivers before the cancel
returns. -/
def cancelledInside : List JobWorld.Action :=
  [.begin, .copy 0 watchedSpeed, .render 0 Config.standard.resolver, .enter 0, .mark, .deliver 0,
    .leave 0, .acquire 0, .release 0]

theorem watchedDeck_live : 0 < watchedDeck.router.live.length := by decide +kernel

/-- The job of the session. -/
def deckJob : Job := watchedDeck.router.live.get ⟨0, watchedDeck_live⟩

theorem cancelledInside_possible :
    ((JobWorld.start deckJob watchedDeck.sessions).steps cancelledInside).isSome = true := by
  decide +kernel

/-- What that run and its cancel lead to. -/
def cancelledDeck : JobWorld :=
  ((JobWorld.start deckJob watchedDeck.sessions).steps cancelledInside).get
    cancelledInside_possible

/-- A session that closes cancels its job, and a run of the job that was inside the gate by then has
delivered its one text. Nothing is delivered after it. -/
theorem closing_watchedDeck_is_barrier :
    (cancelledDeck.isCancelDone = true ∧ cancelledDeck.delivered.length = 1) ∧
      deckJob.cancel ∈ ((CancelCause.closeSession "deck").act watchedDeck).router.jobs ∧
      ∀ more later, cancelledDeck.steps more = some later →
        later.delivered = cancelledDeck.delivered := by
  have possible : cancelledDeck.isCancelDone = true ∧ cancelledDeck.delivered.length = 1 := by
    decide +kernel
  have concerned : (closeSession "deck").Concerns deckJob :=
    (by decide +kernel : deckJob.subscription.session = "deck")
  have made : Hub.ofConfig .standard = .ok (fresh .standard) := rfl
  obtain ⟨marked, -, -, silent⟩ := is_barrier made watchDeck
    (List.getElem_mem watchedDeck_live) concerned
    (Option.some_get cancelledInside_possible).symm
  exact ⟨possible, marked, fun more later stepped => (silent possible.1 more later stepped).1⟩

end CancelCause

end VesselHub
