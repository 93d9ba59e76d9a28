/-
Module: VesselHub.Proofs.Hub.InStep
Purpose: Sessions, subscriptions and jobs stay in step. Whatever consumers ask for, in any order,
  each subscription has one job, which runs it as it was asked for last, and every other job is
  cancelled.
Main exports: HubEvent, Hub.run, Hub.Coherent, Hub.Coherent.perform, Hub.Coherent.run, Hub.InStep,
  Hub.run_inStep
-/
import VesselHub.Hub.Basic
import VesselHub.Proofs.Job.Router

namespace VesselHub

/-- What happens to a hub. Between the requests of consumers messages are merged, time passes, and
jobs run. -/
inductive HubEvent where
  | openSession (session : String)
  | closeSession (session : String)
  | subscribe (session : String) (request : SubscribeRequest)
  | subscribeBroadcast (request : SubscribeRequest)
  | unsubscribe (session : String) (request : UnsubscribeRequest)
  | apply (now : Instant) (message : Json)
  | runJobs (calls : List (Nat × Nat))
  | advance (elapsed : Nat)

namespace Hub

/-- The hub after an event. -/
def perform (hub : Hub) : HubEvent → Hub
  | .openSession session => (hub.openSession session).state
  | .closeSession session => (hub.closeSession session).state
  | .subscribe session request => (hub.subscribe session request).state
  | .subscribeBroadcast request => (hub.subscribeBroadcast request).state
  | .unsubscribe session request => (hub.unsubscribe session request).state
  | .apply now message => (hub.apply now message).state
  | .runJobs calls => (hub.runCalls calls).state
  | .advance elapsed => (hub.advance elapsed).state

/-- The hub after events one after the other. -/
def run (hub : Hub) (events : List HubEvent) : Hub :=
  events.foldl perform hub

/-- Whether a session may hold subscriptions. -/
def Admits (hub : Hub) (session : String) : Prop :=
  session = broadcastSession ∨ hub.sessions.contains session = true

/-- The parts of a hub agree: the jobs that are not cancelled run the subscriptions of the
registry, which belong to sessions that are there. -/
structure Coherent (hub : Hub) : Prop where
  registry : hub.registry.WellFormed
  router : hub.router.Tidy
  served : hub.router.served.Perm hub.registry.active
  admitted : ∀ subscription ∈ hub.registry.active, hub.Admits subscription.session
  parsed : ∀ subscription ∈ hub.registry.active,
    Pattern.ofText subscription.filter = .ok subscription.pattern
  sessions : (Entries.keys hub.sessions.current).Nodup
  spaced : ∀ job ∈ hub.router.jobs, hub.config.minPeriod ≤ job.subscription.period

/-- The settings with which no subscription gets too short a period. -/
def ValidPeriods (config : Config) : Prop :=
  0 < config.minPeriod ∧ config.minPeriod ≤ config.defaultPeriod

theorem fresh_coherent (config : Config) : (fresh config).Coherent where
  registry := Registry.wellFormed_empty
  router := Router.tidy_empty
  served := .nil
  admitted := by simp [fresh, Registry.empty, Registry.active]
  parsed := by simp [fresh, Registry.empty, Registry.active]
  sessions := .nil
  spaced := by simp [fresh, Router.empty]

theorem validPeriods_of_validate {config : Config} (valid : config.validate = .ok ()) :
    ValidPeriods config := by
  rw [Config.validate] at valid
  split at valid
  · cases valid
  split at valid
  · cases valid
  split at valid
  · cases valid
  split at valid
  · cases valid
  rename_i positive ordered
  exact ⟨Nat.pos_of_ne_zero positive, Nat.not_lt.1 ordered⟩

variable {hub : Hub}

/-! ### Subscribing -/

/-- A subscription is of the session that asks, for the path that it asks for, and not more
frequent than the settings allow. -/
theorem ofRequest_fits {policy : PeriodPolicy} (ordered : policy.min ≤ policy.default)
    {session context : String} {entry : Subscription} {subscription : ActiveSubscription}
    (made : ActiveSubscription.ofRequest policy session context entry = .ok subscription) :
    subscription.key = (session, entry.path) ∧
      Pattern.ofText subscription.filter = .ok subscription.pattern ∧
      policy.min ≤ subscription.period := by
  rw [ActiveSubscription.ofRequest] at made
  cases read : Pattern.ofText entry.path with
  | error cause =>
      rw [read] at made
      cases made
  | ok pattern =>
      rw [read] at made
      cases made
      refine ⟨rfl, read, ?_⟩
      cases entry.period with
      | none => exact ordered
      | some wanted => exact policy.min_le_period_some wanted

theorem Coherent.subscribeEntry (coherent : hub.Coherent) (periods : ValidPeriods hub.config)
    {session : String} (admits : hub.Admits session) (context : String) (entry : Subscription) :
    (hub.subscribeEntry session context entry).state.Coherent := by
  rw [Hub.subscribeEntry]
  split
  · exact coherent
  rename_i subscription made
  obtain ⟨key, parsed, long_enough⟩ := ofRequest_fits periods.2 made
  have owner : subscription.session = session := congrArg Prod.fst key
  have active := Registry.active_subscribe_perm coherent.registry subscription
  constructor
  case registry => exact Registry.wellFormed_subscribe coherent.registry subscription
  case router => exact coherent.router.start subscription
  case served =>
      -- On both sides the subscription takes the place of the one with its key.
      have replaced := Router.served_start coherent.router subscription
      have others := coherent.served.filter fun other => other.key != subscription.key
      exact (replaced ▸ List.perm_append_singleton ..).trans ((others.cons _).trans active.symm)
  case admitted =>
      intro other other_mem
      rcases List.mem_cons.1 (active.mem_iff.1 other_mem) with rfl | kept
      · exact owner ▸ admits
      · exact coherent.admitted other (List.mem_filter.1 kept).1
  case parsed =>
      intro other other_mem
      rcases List.mem_cons.1 (active.mem_iff.1 other_mem) with rfl | kept
      · exact parsed
      · exact coherent.parsed other (List.mem_filter.1 kept).1
  case sessions => exact coherent.sessions
  case spaced =>
      intro job job_mem
      rcases Router.subscription_of_mem_start coherent.router subscription job_mem with
        started | ⟨before, before_mem, same⟩
      · exact started ▸ long_enough
      · exact same ▸ coherent.spaced before before_mem

/-- An entry changes neither the settings nor the sessions. -/
theorem subscribeEntry_keeps (hub : Hub) (session context : String) (entry : Subscription) :
    (hub.subscribeEntry session context entry).state.config = hub.config ∧
      (hub.subscribeEntry session context entry).state.sessions = hub.sessions := by
  rw [Hub.subscribeEntry]
  split <;> exact ⟨rfl, rfl⟩

theorem Coherent.subscribeEntries (coherent : hub.Coherent) (periods : ValidPeriods hub.config)
    {session : String} (admits : hub.Admits session) (context : String)
    (entries : List Subscription) :
    (subscribeEntries session context entries hub).state.Coherent := by
  induction entries generalizing hub with
  | nil => exact coherent
  | cons entry entries induction_step =>
      have first := coherent.subscribeEntry periods admits context entry
      obtain ⟨config, sessions⟩ := subscribeEntry_keeps hub session context entry
      refine induction_step first (config ▸ periods) ?_
      rwa [Admits, sessions]

/-- Subscribing is refused for a session that is not there. -/
theorem subscribe_of_not_admits {session : String} (absent : ¬ hub.Admits session)
    (request : SubscribeRequest) :
    (hub.subscribe session request).state = hub ∧
      (hub.subscribe session request).answer = .error (.sessionClosed session) := by
  rw [Admits, not_or, Bool.not_eq_true] at absent
  rw [subscribe, if_pos ⟨absent.1, by rw [absent.2]; rfl⟩]
  exact ⟨rfl, rfl⟩

theorem subscribe_of_admits {session : String} (admits : hub.Admits session)
    (request : SubscribeRequest) :
    (hub.subscribe session request).state =
      (subscribeEntries session request.context request.subscriptions hub).state := by
  have admitted : ¬ (session ≠ broadcastSession ∧ (!hub.sessions.contains session) = true) := by
    rcases admits with broadcast | present
    · exact fun refused => refused.1 broadcast
    · simp [present]
  rw [Hub.subscribe, if_neg admitted]

theorem Coherent.subscribe (coherent : hub.Coherent) (periods : ValidPeriods hub.config)
    (session : String) (request : SubscribeRequest) :
    (hub.subscribe session request).state.Coherent := by
  by_cases admits : hub.Admits session
  · rw [subscribe_of_admits admits]
    exact coherent.subscribeEntries periods admits request.context request.subscriptions
  · rw [(subscribe_of_not_admits admits request).1]
    exact coherent

/-! ### Unsubscribing -/

/-- The parts still agree when the registry and the router have lost the same subscriptions. -/
theorem Coherent.with_less (coherent : hub.Coherent) {registry : Registry} {router : Router}
    (wellFormed : registry.WellFormed) (tidy : router.Tidy)
    (served : router.served.Perm registry.active)
    (fewer : registry.active ⊆ hub.registry.active)
    (known : ∀ job ∈ router.jobs, ∃ before ∈ hub.router.jobs,
      before.subscription = job.subscription) :
    { hub with registry, router }.Coherent := by
  refine ⟨wellFormed, tidy, served, ?_, ?_, coherent.sessions, ?_⟩
  · intro subscription member
    exact coherent.admitted subscription (fewer member)
  · intro subscription member
    exact coherent.parsed subscription (fewer member)
  · intro job member
    obtain ⟨before, before_mem, same⟩ := known job member
    exact same ▸ coherent.spaced before before_mem

/-- Subscriptions are either removed or kept. -/
theorem removeSubscriptions_perm {registry : Registry} (wellFormed : registry.WellFormed)
    (session : String) (paths : List String) :
    (removeSubscriptions session paths registry).1.WellFormed ∧
      registry.active.Perm ((removeSubscriptions session paths registry).2 ++
        (removeSubscriptions session paths registry).1.active) := by
  induction paths generalizing registry with
  | nil => exact ⟨wellFormed, .refl _⟩
  | cons path paths induction_step =>
      rw [removeSubscriptions]
      generalize (if UnsubscribeRequest.namesEverything path then none else some path) = filter
      have first := Registry.wellFormed_unsubscribe wellFormed session filter
      obtain ⟨kept, gone⟩ := Registry.active_unsubscribe wellFormed session filter
      obtain ⟨after, rest⟩ := induction_step first
      refine ⟨after, ?_⟩
      have both := List.filter_append_perm (Registry.takes session filter) registry.active
      rw [← gone, ← kept] at both
      rw [List.append_assoc]
      exact both.symm.trans (rest.append_left _)

/-- Stopping the jobs of subscriptions ends what is served under their keys. -/
theorem stopJobs_spec {router : Router} (tidy : router.Tidy) (removed : List ActiveSubscription) :
    (stopJobs removed router).state.Tidy ∧
      (stopJobs removed router).state.served = router.served.filter (fun subscription =>
        !(removed.map ActiveSubscription.key).contains subscription.key) ∧
      ∀ job ∈ (stopJobs removed router).state.jobs, ∃ before ∈ router.jobs,
        before.subscription = job.subscription := by
  induction removed generalizing router with
  | nil =>
      refine ⟨tidy, ?_, fun job member => ⟨job, member, rfl⟩⟩
      exact (List.filter_eq_self.2 fun _ _ => rfl).symm
  | cons subscription removed induction_step =>
      obtain ⟨after, served, known⟩ :=
        induction_step (tidy.stop subscription.session subscription.filter)
      refine ⟨after, ?_, ?_⟩
      · refine served.trans ?_
        rw [Router.served_stop tidy, List.filter_filter]
        refine List.filter_congr fun other _ => ?_
        rw [List.map_cons, List.contains_cons, Bool.not_or, Bool.and_comm]
        rfl
      · intro job member
        obtain ⟨between, between_mem, same⟩ := known job member
        obtain ⟨before, before_mem, same_before⟩ :=
          Router.subscription_of_mem_remove tidy _ between_mem
        exact ⟨before, before_mem, same_before.trans same⟩

/-- What is left when everything is taken away that has a key of some of the parts. -/
private theorem filter_keys_append {removed kept : List ActiveSubscription}
    (distinct : ((removed ++ kept).map ActiveSubscription.key).Nodup) :
    (removed ++ kept).filter (fun subscription =>
      !(removed.map ActiveSubscription.key).contains subscription.key) = kept := by
  rw [List.map_append, List.nodup_append] at distinct
  have gone : removed.filter (fun subscription =>
      !(removed.map ActiveSubscription.key).contains subscription.key) = [] := by
    rw [List.filter_eq_nil_iff]
    intro subscription member
    simpa using ⟨subscription, member, rfl⟩
  have spared : kept.filter (fun subscription =>
      !(removed.map ActiveSubscription.key).contains subscription.key) = kept := by
    rw [List.filter_eq_self]
    intro subscription member
    simp only [Bool.not_eq_true', List.contains_eq_mem, decide_eq_false_iff_not]
    exact fun repeated => distinct.2.2 _ repeated _ (List.mem_map_of_mem member) rfl
  rw [List.filter_append, gone, spared, List.nil_append]

theorem Coherent.unsubscribe (coherent : hub.Coherent) (session : String)
    (request : UnsubscribeRequest) : (hub.unsubscribe session request).state.Coherent := by
  obtain ⟨wellFormed, removed⟩ :=
    removeSubscriptions_perm coherent.registry session request.paths
  obtain ⟨tidy, served, known⟩ := stopJobs_spec coherent.router
    (removeSubscriptions session request.paths hub.registry).2
  have distinct := (removed.map ActiveSubscription.key).nodup
    (Registry.nodup_keys_active coherent.registry)
  -- The router forgets keys and the registry forgets entries. Keys are distinct, so what they
  -- forget is the same.
  have left := (coherent.served.trans removed).filter fun subscription =>
    !(((removeSubscriptions session request.paths hub.registry).2).map
      ActiveSubscription.key).contains subscription.key
  rw [filter_keys_append distinct, ← served] at left
  exact coherent.with_less wellFormed tidy left
    (fun subscription member => removed.symm.subset (List.mem_append_right _ member)) known

/-! ### Opening and closing sessions -/

theorem Coherent.openSession (coherent : hub.Coherent) (session : String) :
    (hub.openSession session).state.Coherent := by
  refine ⟨coherent.registry, coherent.router, coherent.served, ?_, coherent.parsed, ?_,
    coherent.spaced⟩
  · intro subscription member
    exact (coherent.admitted subscription member).imp id fun present =>
      Sessions.contains_register_of_contains present session
  · exact Sessions.nodup_keys_register coherent.sessions session

theorem active_closeSession (coherent : hub.Coherent) (session : String) :
    (hub.closeSession session).state.registry.active =
      hub.registry.active.filter fun subscription => subscription.session != session := by
  refine (Registry.active_unsubscribe coherent.registry session none).1.trans ?_
  refine List.filter_congr fun subscription _ => ?_
  simp [Registry.takes, bne]

theorem Coherent.closeSession (coherent : hub.Coherent) (session : String) :
    (hub.closeSession session).state.Coherent := by
  have active := active_closeSession coherent session
  have served : (hub.closeSession session).state.router.served.Perm
      (hub.closeSession session).state.registry.active := by
    rw [active]
    have stopped := Router.served_stopSession coherent.router session
    exact stopped ▸ coherent.served.filter _
  refine ⟨Registry.wellFormed_unsubscribe coherent.registry session none,
    coherent.router.stopSession session, served, ?_, ?_,
    Sessions.nodup_keys_unregister coherent.sessions session, ?_⟩
  · intro subscription member
    rw [active] at member
    obtain ⟨before, other⟩ := List.mem_filter.1 member
    refine (coherent.admitted subscription before).imp id fun present => ?_
    have differs : session ≠ subscription.session := fun same => by simp [same] at other
    exact (Sessions.contains_unregister_of_ne differs).trans present
  · intro subscription member
    rw [active] at member
    exact coherent.parsed subscription (List.mem_filter.1 member).1
  · intro job member
    obtain ⟨before, before_mem, same⟩ :=
      Router.subscription_of_mem_remove coherent.router _ member
    exact same ▸ coherent.spaced before before_mem

/-! ### Between the requests -/

theorem Coherent.apply (coherent : hub.Coherent) (now : Instant) (message : Json) :
    (hub.apply now message).state.Coherent := by
  rw [Hub.apply]
  split
  · exact ⟨coherent.registry, coherent.router, coherent.served, coherent.admitted,
      coherent.parsed, coherent.sessions, coherent.spaced⟩
  · exact coherent

/-- The parts still agree when jobs have run. -/
theorem Coherent.of_standings (coherent : hub.Coherent) {router : Router} {sessions : Sessions}
    (same : router.jobs.map Job.standing = hub.router.jobs.map Job.standing)
    (started : router.started = hub.router.started) (routes : router.routes = hub.router.routes)
    (current : sessions.current = hub.sessions.current) :
    { hub with router, sessions }.Coherent := by
  refine ⟨coherent.registry, coherent.router.of_standings same started routes, ?_, ?_,
    coherent.parsed, ?_, ?_⟩
  · exact Router.served_of_standings same ▸ coherent.served
  · intro subscription member
    refine (coherent.admitted subscription member).imp id fun present => ?_
    rwa [Sessions.contains, current]
  · rw [current]
    exact coherent.sessions
  · intro job member
    have standing : job.standing ∈ hub.router.jobs.map Job.standing :=
      same ▸ List.mem_map_of_mem member
    obtain ⟨before, before_mem, same_standing⟩ := List.mem_map.1 standing
    have same_subscription : before.subscription = job.subscription :=
      congrArg (fun standing => standing.2.1) same_standing
    exact same_subscription ▸ coherent.spaced before before_mem

theorem Coherent.runCalls (coherent : hub.Coherent) (calls : List (Nat × Nat)) :
    (hub.runCalls calls).state.Coherent :=
  coherent.of_standings (Router.runCalls_standings ..) rfl rfl (Router.runCalls_current ..)

theorem Coherent.advance (coherent : hub.Coherent) (elapsed : Nat) :
    (hub.advance elapsed).state.Coherent :=
  coherent.of_standings (Router.runCalls_standings ..) rfl rfl (Router.runCalls_current ..)

/-! ### Any run -/

/-- One event keeps the parts in agreement. -/
theorem Coherent.perform (coherent : hub.Coherent) (periods : ValidPeriods hub.config)
    (event : HubEvent) : (hub.perform event).Coherent := by
  cases event with
  | openSession session => exact coherent.openSession session
  | closeSession session => exact coherent.closeSession session
  | subscribe session request => exact coherent.subscribe periods session request
  | subscribeBroadcast request => exact coherent.subscribe periods broadcastSession request
  | unsubscribe session request => exact coherent.unsubscribe session request
  | apply now message => exact coherent.apply now message
  | runJobs calls => exact coherent.runCalls calls
  | advance elapsed => exact coherent.advance elapsed

theorem config_subscribeEntries (session context : String) (entries : List Subscription)
    (hub : Hub) : (subscribeEntries session context entries hub).state.config = hub.config := by
  induction entries generalizing hub with
  | nil => rfl
  | cons entry entries induction_step =>
      exact (induction_step _).trans (subscribeEntry_keeps hub session context entry).1

theorem config_subscribe (hub : Hub) (session : String) (request : SubscribeRequest) :
    (hub.subscribe session request).state.config = hub.config := by
  rw [Hub.subscribe]
  split
  · rfl
  · exact config_subscribeEntries ..

theorem config_perform (hub : Hub) (event : HubEvent) :
    (hub.perform event).config = hub.config := by
  cases event with
  | subscribe session request => exact hub.config_subscribe session request
  | subscribeBroadcast request => exact hub.config_subscribe broadcastSession request
  | apply now message =>
      rw [perform, Hub.apply]
      split <;> rfl
  | _ => rfl

/-- Events one after the other keep the parts in agreement. -/
theorem Coherent.run (coherent : hub.Coherent) (periods : ValidPeriods hub.config)
    (events : List HubEvent) :
    (hub.run events).Coherent ∧ (hub.run events).config = hub.config := by
  induction events generalizing hub with
  | nil => exact ⟨coherent, rfl⟩
  | cons event events induction_step =>
      -- The settings go along, since every step needs that the periods are in order.
      have config := hub.config_perform event
      obtain ⟨after, same⟩ :=
        induction_step (coherent.perform periods event) (config ▸ periods)
      exact ⟨after, same.trans config⟩

/-- Sessions, subscriptions and jobs are in step. -/
structure InStep (hub : Hub) : Prop where
  /-- There is one route for each subscription, under the same key. -/
  keys : (hub.router.routes.map Route.key).Perm
    (hub.registry.active.map ActiveSubscription.key)
  distinct : (hub.router.routes.map Route.key).Nodup
  /-- No two jobs have one number. -/
  numbered : hub.router.jobs.map Job.number = List.range hub.router.started
  /-- The job of a route runs the subscription that the registry has under its key now. -/
  current : ∀ route ∈ hub.router.routes, ∃ job ∈ hub.router.jobs,
    job.number = route.job ∧ job.isCancelled = false ∧ job.subscription.key = route.key ∧
      job.subscription ∈ hub.registry.active
  /-- It watches the pattern that its filter is the text of. -/
  parsed : ∀ subscription ∈ hub.registry.active,
    Pattern.ofText subscription.filter = .ok subscription.pattern
  /-- A job that was replaced or removed is cancelled. -/
  ended : ∀ job ∈ hub.router.jobs, job.number ∉ hub.router.routes.map Route.job →
    job.isCancelled = true
  admitted : ∀ subscription ∈ hub.registry.active, hub.Admits subscription.session
  /-- A session that is closed leaves nothing behind. -/
  closed : ∀ session, session ≠ broadcastSession →
    ¬ (hub.closeSession session).state.Admits session ∧
      ∀ subscription ∈ (hub.closeSession session).state.registry.active,
        subscription.session ≠ session
  /-- Subscribing for a session that is not there changes nothing. -/
  late : ∀ session request, ¬ hub.Admits session →
    (hub.subscribe session request).state = hub ∧
      (hub.subscribe session request).answer = .error (.sessionClosed session)
  spaced : 0 < hub.config.minPeriod ∧
    ∀ job ∈ hub.router.jobs, hub.config.minPeriod ≤ job.subscription.period

/-- The routes have the keys of the subscriptions. -/
theorem Coherent.keys_routes (coherent : hub.Coherent) :
    (hub.router.routes.map Route.key).Perm
      (hub.registry.active.map ActiveSubscription.key) := by
  have same := coherent.served.map ActiveSubscription.key
  rw [Router.served, List.map_map] at same
  rwa [coherent.router.routed, List.map_map]

theorem Coherent.inStep (coherent : hub.Coherent) (periods : ValidPeriods hub.config) :
    hub.InStep where
  keys := coherent.keys_routes
  distinct := coherent.keys_routes.symm.nodup (Registry.nodup_keys_active coherent.registry)
  numbered := coherent.router.numbered
  current := by
    intro route routed
    rw [coherent.router.routed] at routed
    obtain ⟨job, live, rfl⟩ := List.mem_map.1 routed
    obtain ⟨member, running⟩ := List.mem_filter.1 live
    have registered := coherent.served.subset (List.mem_map_of_mem live)
    exact ⟨job, member, rfl, by simpa using running, rfl, registered⟩
  ended := fun _ member unrouted => coherent.router.cancelled_of_unrouted member unrouted
  admitted := coherent.admitted
  parsed := coherent.parsed
  closed := by
    intro session single
    constructor
    · have unregistered := Sessions.contains_unregister coherent.sessions session
      rintro (broadcast | present)
      · exact single broadcast
      · exact Bool.false_ne_true (unregistered.symm.trans present)
    · intro subscription member
      rw [active_closeSession coherent session] at member
      simpa using (List.mem_filter.1 member).2
  late := fun _ request absent => subscribe_of_not_admits absent request
  spaced := ⟨periods.1, coherent.spaced⟩

theorem fresh_of_ofConfig {config : Config} (made : ofConfig config = .ok hub) :
    hub.Coherent ∧ ValidPeriods hub.config ∧ hub.config = config := by
  rw [ofConfig] at made
  split at made
  · rename_i valid
    cases made
    exact ⟨fresh_coherent config, validPeriods_of_validate valid, rfl⟩
  · cases made

/-- Whatever happens to a hub with valid settings, its parts are in step. -/
theorem run_inStep {config : Config} (made : ofConfig config = .ok hub)
    (events : List HubEvent) :
    (hub.run events).InStep ∧ (hub.run events).config = config := by
  obtain ⟨fresh, periods, rfl⟩ := fresh_of_ofConfig made
  obtain ⟨coherent, same⟩ := fresh.run periods events
  exact ⟨coherent.inStep (same ▸ periods), same⟩

/-- A session that subscribes to one path twice, closes, and subscribes once more. -/
def lateDeck : List HubEvent :=
  let request : SubscribeRequest := {
    context := "vessels.self"
    subscriptions := [⟨"navigation.*", some 1, none⟩, ⟨"navigation.*", none, some .full⟩] }
  [.openSession "deck", .subscribe "deck" request, .runJobs [(0, 1)], .subscribeBroadcast request,
    .closeSession "deck", .subscribe "deck" request]

/-- A session that closes and comes back leaves the parts in step. Of the four jobs that its
requests started only the last one still runs, and there is one route. -/
theorem lateDeck_inStep :
    ofConfig .standard = .ok (fresh .standard) ∧
      ((fresh .standard).run lateDeck).InStep ∧
      ((fresh .standard).run lateDeck).router.routes.map Route.key = [("*", "navigation.*")] ∧
      ((fresh .standard).run lateDeck).router.jobs.map Job.isCancelled =
        [true, true, true, false] :=
  have made : ofConfig .standard = .ok (fresh .standard) := rfl
  ⟨made, (run_inStep made lateDeck).1, by decide +kernel, by decide +kernel⟩

end Hub

end VesselHub
