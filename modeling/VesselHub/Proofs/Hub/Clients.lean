/-
Module: VesselHub.Proofs.Hub.Clients
Purpose: Hubs whose clients are known. Sessions, subscriptions and jobs belong to clients or stand
  for all of them, even when a client's session was unregistered behind its back, so of anyone else
  there is nothing.
Main exports: Hub.ServesOnly, Hub.ServesOnly.perform, Hub.ServesOnly.ingest, Hub.Forgot,
  Hub.ServesOnly.forgot
-/
import VesselHub.Hub.Process
import VesselHub.Proofs.Hub.InStep
import VesselHub.Proofs.Hub.Refused

namespace VesselHub

/-- Whether an event registers a session. -/
def HubEvent.opensSession : HubEvent → Bool
  | .openSession _ => true
  | _ => false

namespace Hub

/-- The hub as if just these sessions were registered. -/
def admitting (hub : Hub) (clients : List String) : Hub :=
  { hub with sessions := { hub.sessions with current := clients.map fun client => (client, 0) } }

/-- Whatever is registered or holds a subscription is a client, or stands for all clients. A client
may have lost its registration already, so the parts of the hub agree only as if it had not. -/
structure ServesOnly (hub : Hub) (clients : List String) : Prop where
  coherent : (hub.admitting clients).Coherent
  registered : ∀ session, hub.sessions.contains session = true → session ∈ clients
  distinct : (Entries.keys hub.sessions.current).Nodup
  periods : ValidPeriods hub.config

/-- Nothing is left of a session: it is in no table, it holds no subscription, and no job that runs
is for it. -/
structure Forgot (hub : Hub) (session : String) : Prop where
  unregistered : hub.sessions.contains session = false
  unsubscribed : ∀ subscription ∈ hub.registry.active, subscription.session ≠ session
  unrouted : ∀ route ∈ hub.router.routes, route.session ≠ session
  stopped : ∀ job ∈ hub.router.jobs, job.subscription.session = session → job.isCancelled = true

variable {hub : Hub} {clients : List String}

@[simp] theorem keys_admitting (hub : Hub) (clients : List String) :
    Entries.keys (hub.admitting clients).sessions.current = clients := by
  rw [admitting, Entries.keys, List.map_map]
  exact List.map_id clients

private theorem contains_admitting {session : String} :
    (hub.admitting clients).sessions.contains session = true ↔ session ∈ clients := by
  rw [Sessions.contains, Entries.contains, Option.isSome_iff_ne_none, ne_eq,
    Entries.get?_eq_none_iff, keys_admitting, not_not]

theorem admits_admitting {session : String} :
    (hub.admitting clients).Admits session ↔ session = broadcastSession ∨ session ∈ clients :=
  or_congr Iff.rfl contains_admitting

/-- Which sessions are registered matters only to whom subscriptions may belong. -/
theorem Coherent.admitting {other : Hub} (coherent : hub.Coherent)
    (registry : other.registry = hub.registry) (router : other.router = hub.router)
    (config : other.config = hub.config) (distinct : clients.Nodup)
    (known : ∀ subscription ∈ other.registry.active,
      subscription.session = broadcastSession ∨ subscription.session ∈ clients) :
    (other.admitting clients).Coherent where
  registry := by
    change other.registry.WellFormed
    exact registry ▸ coherent.registry
  router := by
    change other.router.Tidy
    exact router ▸ coherent.router
  served := by
    change other.router.served.Perm other.registry.active
    exact router ▸ registry ▸ coherent.served
  admitted := fun subscription member => admits_admitting.2 (known subscription member)
  parsed := by
    change ∀ subscription ∈ other.registry.active, _
    exact registry ▸ coherent.parsed
  sessions := by rwa [keys_admitting]
  spaced := by
    change ∀ job ∈ other.router.jobs, other.config.minPeriod ≤ _
    exact router ▸ config ▸ coherent.spaced

namespace ServesOnly

theorem distinct_clients (serves : hub.ServesOnly clients) : clients.Nodup := by
  have distinct := serves.coherent.sessions
  rwa [keys_admitting] at distinct

theorem known (serves : hub.ServesOnly clients) :
    ∀ subscription ∈ hub.registry.active,
      subscription.session = broadcastSession ∨ subscription.session ∈ clients :=
  fun subscription member => admits_admitting.1 (serves.coherent.admitted subscription member)

/-- Of a session that is no client, nothing is there. -/
theorem forgot (serves : hub.ServesOnly clients) {session : String}
    (single : session ≠ broadcastSession) (gone : session ∉ clients) : hub.Forgot session := by
  have unsubscribed : ∀ subscription ∈ hub.registry.active, subscription.session ≠ session := by
    rintro subscription member rfl
    exact (serves.known subscription member).elim single gone
  refine ⟨?_, unsubscribed, ?_, ?_⟩
  · rw [← Bool.not_eq_true]
    exact fun present => gone (serves.registered session present)
  · intro route routed same
    have key_mem := serves.coherent.keys_routes.subset (List.mem_map_of_mem routed)
    obtain ⟨subscription, member, key_eq⟩ := List.mem_map.1 key_mem
    exact unsubscribed subscription member ((congrArg Prod.fst key_eq).trans same)
  · intro job member same
    by_contra running
    have live : job ∈ hub.router.live :=
      List.mem_filter.2 ⟨member, by simpa using running⟩
    exact unsubscribed job.subscription
      (serves.coherent.served.subset (List.mem_map_of_mem live)) same

/-- It makes no difference what the model holds and what waits for the sessions. -/
theorem keep (serves : hub.ServesOnly clients) {other : Hub}
    (registry : other.registry = hub.registry) (router : other.router = hub.router)
    (config : other.config = hub.config)
    (current : other.sessions.current = hub.sessions.current) : other.ServesOnly clients where
  coherent := serves.coherent.admitting registry router config serves.distinct_clients
    (registry ▸ serves.known)
  registered := fun session present =>
    serves.registered session (by rwa [Sessions.contains, current] at present)
  distinct := current ▸ serves.distinct
  periods := config ▸ serves.periods

theorem more (serves : hub.ServesOnly clients) {others : List String} (distinct : others.Nodup)
    (among : clients ⊆ others) : hub.ServesOnly others where
  coherent := serves.coherent.admitting rfl rfl rfl distinct fun subscription member =>
    (serves.known subscription member).imp_right fun known => among known
  registered := fun session present => among (serves.registered session present)
  distinct := serves.distinct
  periods := serves.periods

/-! ### Sessions -/

theorem openSession (serves : hub.ServesOnly clients) {session : String}
    (new : session ∉ clients) :
    (hub.openSession session).state.ServesOnly (clients ++ [session]) := by
  have distinct : (clients ++ [session]).Nodup :=
    List.nodup_append'.2 ⟨serves.distinct_clients, List.nodup_singleton session,
      List.disjoint_singleton.2 new⟩
  have wider := serves.more distinct (List.subset_append_left clients [session])
  refine ⟨wider.coherent.admitting rfl rfl rfl distinct wider.known, ?_,
    Sessions.nodup_keys_register serves.distinct session, serves.periods⟩
  intro other present
  by_cases same : session = other
  · exact List.mem_append_right _ (List.mem_singleton.2 same.symm)
  · refine wider.registered other ?_
    simpa [Hub.openSession, Sessions.contains, Sessions.register, Entries.contains,
      Entries.get?_insert_of_ne _ _ same] using present

/-- Who is left when a session has been unregistered. -/
theorem registered_unregister (serves : hub.ServesOnly clients) {session other : String}
    (present : (hub.sessions.unregister session).state.contains other = true) :
    other ∈ clients ∧ other ≠ session := by
  have differs : session ≠ other := by
    rintro rfl
    rw [Sessions.contains_unregister serves.distinct] at present
    cases present
  rw [Sessions.contains_unregister_of_ne differs] at present
  exact ⟨serves.registered other present, differs.symm⟩

theorem unregister (serves : hub.ServesOnly clients) (session : String) :
    { hub with sessions := (hub.sessions.unregister session).state }.ServesOnly clients where
  coherent := serves.coherent.admitting rfl rfl rfl serves.distinct_clients serves.known
  registered := fun _ present => (serves.registered_unregister present).1
  distinct := Sessions.nodup_keys_unregister serves.distinct session
  periods := serves.periods

/-- A session that is closed is no client any more. -/
theorem closeSession (serves : hub.ServesOnly clients) (session : String) :
    (hub.closeSession session).state.ServesOnly (clients.filter (· != session)) where
  coherent := by
    refine (serves.coherent.closeSession session).admitting rfl rfl rfl
      (serves.distinct_clients.filter _) fun subscription member => ?_
    have active := active_closeSession serves.coherent session
    have still : subscription ∈ hub.registry.active.filter fun subscription =>
        subscription.session != session := active ▸ member
    obtain ⟨before, other⟩ := List.mem_filter.1 still
    exact (serves.known subscription before).imp_right fun known =>
      List.mem_filter.2 ⟨known, other⟩
  registered := fun other present => by
    have left : other ∈ clients ∧ other ≠ session := serves.registered_unregister present
    obtain ⟨known, differs⟩ := left
    exact List.mem_filter.2 ⟨known, by simpa using differs⟩
  distinct := Sessions.nodup_keys_unregister serves.distinct session
  periods := serves.periods

end ServesOnly

/-! ### Subscriptions -/

private theorem subscribeEntry_admitting (hub : Hub) (clients : List String)
    (session context : String)
    (entry : Subscription) : ((hub.admitting clients).subscribeEntry session context entry).state =
      (hub.subscribeEntry session context entry).state.admitting clients := by
  cases made : ActiveSubscription.ofRequest hub.config.periods session context entry with
  | error cause =>
      have made_too : ActiveSubscription.ofRequest (hub.admitting clients).config.periods session
          context entry = .error cause := made
      rw [subscribeEntry, subscribeEntry, made, made_too]
  | ok subscription =>
      have made_too : ActiveSubscription.ofRequest (hub.admitting clients).config.periods session
          context entry = .ok subscription := made
      rw [subscribeEntry, subscribeEntry, made, made_too]
      rfl

/-- Subscribing does not ask which sessions are registered, once the session is let in. -/
theorem subscribeEntries_admitting (session context : String) (entries : List Subscription)
    (hub : Hub) (clients : List String) :
    (subscribeEntries session context entries (hub.admitting clients)).state =
        (subscribeEntries session context entries hub).state.admitting clients ∧
      (subscribeEntries session context entries hub).state.sessions = hub.sessions := by
  induction entries generalizing hub with
  | nil => exact ⟨rfl, rfl⟩
  | cons entry entries induction_step =>
      obtain ⟨ghost, sessions⟩ := induction_step (hub.subscribeEntry session context entry).state
      have entry_sessions := (subscribeEntry_keeps hub session context entry).2
      refine ⟨?_, sessions.trans entry_sessions⟩
      rw [subscribeEntries, subscribeEntry_admitting]
      exact ghost

namespace ServesOnly

theorem subscribe (serves : hub.ServesOnly clients) (session : String)
    (request : SubscribeRequest) : (hub.subscribe session request).state.ServesOnly clients := by
  by_cases admits : hub.Admits session
  · have config := hub.config_subscribe session request
    rw [subscribe_of_admits admits] at config ⊢
    obtain ⟨ghost, sessions⟩ := subscribeEntries_admitting session request.context
      request.subscriptions hub clients
    have ghost_admits : (hub.admitting clients).Admits session :=
      admits_admitting.2 (admits.imp_right (serves.registered session))
    have coherent := serves.coherent.subscribeEntries serves.periods ghost_admits request.context
      request.subscriptions
    rw [ghost] at coherent
    exact ⟨coherent, fun other present => serves.registered other (sessions ▸ present),
      sessions ▸ serves.distinct, config ▸ serves.periods⟩
  · rw [(subscribe_of_not_admits admits request).1]
    exact serves

theorem unsubscribe (serves : hub.ServesOnly clients) (session : String)
    (request : UnsubscribeRequest) :
    (hub.unsubscribe session request).state.ServesOnly clients where
  coherent := serves.coherent.unsubscribe session request
  registered := serves.registered
  distinct := serves.distinct
  periods := serves.periods

/-! ### Jobs and messages -/

theorem of_standings (serves : hub.ServesOnly clients) {router : Router} {sessions : Sessions}
    (same : router.jobs.map Job.standing = hub.router.jobs.map Job.standing)
    (started : router.started = hub.router.started) (routes : router.routes = hub.router.routes)
    (current : sessions.current = hub.sessions.current) :
    { hub with router, sessions }.ServesOnly clients where
  coherent := serves.coherent.of_standings same started routes rfl
  registered := fun session present =>
    serves.registered session (by rwa [Sessions.contains, current] at present)
  distinct := current ▸ serves.distinct
  periods := serves.periods

theorem apply (serves : hub.ServesOnly clients) (now : Instant) (message : Json) :
    (hub.apply now message).state.ServesOnly clients := by
  rw [Hub.apply]
  split
  · exact serves.keep rfl rfl rfl rfl
  · exact serves

/-- Whatever happens that registers no session, there are no more clients. -/
theorem perform (serves : hub.ServesOnly clients) {event : HubEvent}
    (opens_none : event.opensSession = false) : (hub.perform event).ServesOnly clients := by
  cases event with
  | openSession session => cases opens_none
  | closeSession session =>
      exact (serves.closeSession session).more serves.distinct_clients
        List.filter_sublist.subset
  | subscribe session request => exact serves.subscribe session request
  | subscribeBroadcast request => exact serves.subscribe broadcastSession request
  | unsubscribe session request => exact serves.unsubscribe session request
  | apply now message => exact serves.apply now message
  | runJobs calls =>
      exact serves.of_standings (Router.runCalls_standings ..) rfl rfl (Router.runCalls_current ..)
  | advance elapsed =>
      exact serves.of_standings (Router.runCalls_standings ..) rfl rfl (Router.runCalls_current ..)

theorem reply (serves : hub.ServesOnly clients) (session : String) (message : ServerMessage) :
    (hub.reply session message).1.ServesOnly clients :=
  serves.keep rfl rfl rfl (Sessions.current_send ..)

theorem merge (serves : hub.ServesOnly clients) (now : Instant) (message : Json) :
    (hub.merge now message).state.ServesOnly clients := by
  have applied := serves.apply now message
  rw [Hub.merge]
  split <;> exact applied

theorem dispatch (serves : hub.ServesOnly clients) (now : Instant) (session : Option String)
    (message : Inbound) : (hub.dispatch now session message).state.ServesOnly clients := by
  have for_session : ∀ (kind : String) (act : String → Step Hub (Except HubError Unit)),
      (∀ name, (act name).state.ServesOnly clients) →
        (hub.forSession kind session act).state.ServesOnly clients := by
    intro kind act acts
    cases session with
    | none => exact serves
    | some name => exact acts name
  cases message with
  | document value => exact serves.merge now value
  | delta value => exact serves.merge now value
  | get request => exact for_session _ _ fun name => serves.reply name _
  | list request => exact for_session _ _ fun name => serves.reply name _
  | subscribe request => exact for_session _ _ fun name => serves.subscribe name request
  | unsubscribe request => exact for_session _ _ fun name => serves.unsubscribe name request

/-- No message makes more clients, whoever it is from. -/
theorem ingest (serves : hub.ServesOnly clients) (now : Instant) (inbound : InboundText) :
    (hub.ingest now inbound).state.ServesOnly clients := by
  rw [state_ingest]
  cases read : Inbound.ofText inbound.text with
  | error cause =>
      rw [process, read]
      exact serves
  | ok message =>
      rw [process, read]
      exact serves.dispatch now inbound.session message

end ServesOnly

/-- A new hub has no clients. -/
theorem serves_of_ofConfig {config : Config} (made : ofConfig config = .ok hub) :
    hub.ServesOnly [] := by
  obtain ⟨coherent, periods, -⟩ := fresh_of_ofConfig made
  rw [ofConfig] at made
  split at made
  · cases made
    have known : ∀ subscription ∈ (fresh config).registry.active,
        subscription.session = broadcastSession ∨ subscription.session ∈ [] := by
      simp [fresh, Registry.empty, Registry.active]
    refine ⟨coherent.admitting rfl rfl rfl .nil known, fun session present => ?_, .nil, periods⟩
    rw [show (fresh config).sessions.contains session = false from rfl] at present
    cases present
  · cases made

end Hub

end VesselHub
