/-
Module: VesselHub.Proofs.Transport.World
Purpose: A server and the handlers of its connections, with the ingestion worker, the jobs and
  everybody else taking their steps in any order. A connection whose handler is finished leaves
  nothing behind.
Main exports: ServerWorld, ServerMove, ServerWorld.step, ServerWorld.steps, ServerWorld.Orderly,
  ServerWorld.Orderly.step, ServerWorld.finished_leaves_nothing
-/
import VesselHub.Proofs.Transport.Handler

namespace VesselHub

/-- A server and the handlers of its connections, those that are finished included. -/
structure ServerWorld where
  server : Server
  handlers : List Handler

/-- What can happen next. -/
inductive ServerMove where
  /-- A connection that carries lines is accepted. It needs no greeting. -/
  | connectLines (session : String)
  | connectWebSocket (session : String) (query : Option String)
  /-- A step of the handler at a position. -/
  | handle (position : Nat) (event : HandlerEvent)
  /-- The worker deals with the oldest message. -/
  | work (now : Instant)
  | stopIngest
  /-- Somebody who is no client submits a message. -/
  | feed (text : String)
  /-- Somebody forgets a session while its connection is open. -/
  | unregister (session : String)
  /-- The hub is used directly, or jobs of it run. -/
  | hub (event : HubEvent)

/-- The sessions of the connections that are accepted on the way. -/
def ServerMove.accepted : List ServerMove → List String
  | [] => []
  | .connectLines session :: moves => session :: accepted moves
  | .connectWebSocket session _ :: moves => session :: accepted moves
  | _ :: moves => accepted moves

namespace ServerWorld

def start (hub : Hub) : ServerWorld := ⟨.start hub, []⟩

/-- The sessions of all connections that there have been. -/
def sessions (world : ServerWorld) : List String :=
  world.handlers.map Handler.session

/-- The world after a move, if it is possible now. Sessions are registered by connections only. -/
def step (world : ServerWorld) : ServerMove → Option ServerWorld
  | .connectLines session =>
      some ⟨world.server.connectLines session, world.handlers ++ [⟨session, .lines, .serving⟩]⟩
  | .connectWebSocket session query =>
      let mode := InitialMode.ofQuery (query.map Server.withoutFragment)
      some { world with handlers := world.handlers ++ [⟨session, .webSocket, .greeting mode⟩] }
  | .handle position event =>
      match world.handlers[position]? with
      | none => none
      | some handler =>
          (handler.step world.server event).map fun (server, phase, _) =>
            ⟨server, world.handlers.set position { handler with phase }⟩
  | .work now => some { world with server := world.server.work now }
  | .stopIngest => some { world with server := world.server.stopIngest }
  | .feed text => some { world with server := (world.server.submit ⟨none, text⟩).1 }
  | .unregister session => some { world with server := (world.server.unregister session).1 }
  | .hub event =>
      if event.opensSession then none
      else some { world with server := { world.server with hub := world.server.hub.perform event } }

/-- The world after some moves, if each is possible when its turn comes. -/
def steps : List ServerMove → ServerWorld → Option ServerWorld
  | [], world => some world
  | move :: moves, world => (world.step move).bind (steps moves)

/-! ### What a move changes -/

/-- What a move is to the clients and to the handlers. -/
inductive Moves (world : ServerWorld) : ServerMove → ServerWorld → Prop where
  | accepts_lines (session : String) :
      Moves world (.connectLines session)
        ⟨world.server.openConnection session (.lines .empty),
          world.handlers ++ [⟨session, .lines, .serving⟩]⟩
  | accepts_webSocket (session : String) (query : Option String) (mode : InitialMode) :
      Moves world (.connectWebSocket session query)
        { world with handlers := world.handlers ++ [⟨session, .webSocket, .greeting mode⟩] }
  | handles {position : Nat} {event : HandlerEvent} {handler : Handler} {after : Server}
      {phase : HandlerPhase} (found : world.handlers[position]? = some handler)
      (unfinished : handler.phase ≠ .finished)
      (moves : handler.Moves world.server after phase) :
      Moves world (.handle position event)
        ⟨after, world.handlers.set position { handler with phase }⟩
  /-- The connections stay the same, and whatever is done is done for clients. -/
  | elsewhere {move : ServerMove} {server : Server} (accepts : ServerMove.accepted [move] = [])
      (connections : server.connections = world.server.connections)
      (serves : ∀ clients, world.server.hub.ServesOnly clients → server.hub.ServesOnly clients) :
      Moves world move { world with server }

variable {world later : ServerWorld}

theorem moves_of_handle {position : Nat} {event : HandlerEvent}
    (stepped : world.step (.handle position event) = some later) :
    world.Moves (.handle position event) later := by
  rw [step] at stepped
  cases found : world.handlers[position]? with
  | none =>
      rw [found] at stepped
      cases stepped
  | some handler =>
      rw [found] at stepped
      obtain ⟨⟨after, phase, outputs⟩, handler_stepped, rfl⟩ := Option.map_eq_some_iff.1 stepped
      refine .handles found (fun finished => ?_) (Handler.moves_of_step handler_stepped)
      rw [Handler.step_of_finished finished] at handler_stepped
      cases handler_stepped

theorem moves_of_step {move : ServerMove} (stepped : world.step move = some later) :
    world.Moves move later := by
  cases move with
  | connectLines session =>
      cases stepped
      exact .accepts_lines session
  | connectWebSocket session query =>
      cases stepped
      exact .accepts_webSocket session query _
  | handle position event => exact moves_of_handle stepped
  | work now =>
      cases stepped
      cases waiting : world.server.inbox with
      | nil =>
          rw [Server.work, waiting]
          exact .elsewhere rfl rfl fun _ serves => serves
      | cons inbound inbox =>
          rw [Server.work, waiting]
          refine .elsewhere rfl rfl fun clients serves => ?_
          dsimp only
          exact serves.ingest now inbound
  | stopIngest =>
      cases stepped
      exact .elsewhere rfl rfl fun _ serves => serves
  | feed text =>
      cases stepped
      cases ingesting : world.server.isIngesting
      all_goals
        simp only [Server.submit, ingesting, if_true, if_false, Bool.false_eq_true]
        exact .elsewhere rfl rfl fun _ serves => serves
  | unregister session =>
      cases stepped
      exact .elsewhere rfl rfl fun _ serves => serves.unregister session
  | hub event =>
      rw [step] at stepped
      split at stepped
      · cases stepped
      · rename_i opens_none
        cases stepped
        exact .elsewhere rfl rfl fun _ serves => serves.perform (eq_false_of_ne_true opens_none)

/-- A step of a handler is for the session that it always was for. -/
theorem sessions_set {position : Nat} {handler : Handler} {server : Server} {phase : HandlerPhase}
    (found : world.handlers[position]? = some handler) :
    sessions ⟨server, world.handlers.set position { handler with phase }⟩ = world.sessions := by
  obtain ⟨inside, at_position⟩ := List.getElem?_eq_some_iff.1 found
  have among : position < world.sessions.length := by rwa [sessions, List.length_map]
  have own : world.sessions.set position world.sessions[position] = world.sessions :=
    List.set_getElem_self among
  simp only [sessions, List.getElem_map, at_position] at own
  rw [sessions, List.map_set]
  exact own

/-- The sessions are those that there were and those that are accepted. -/
theorem Moves.sessions_eq {move : ServerMove} (moves : world.Moves move later) :
    later.sessions = world.sessions ++ ServerMove.accepted [move] := by
  cases moves with
  | accepts_lines => exact List.map_append
  | accepts_webSocket => exact List.map_append
  | handles found => exact (sessions_set found).trans (List.append_nil _).symm
  | elsewhere accepts => rw [accepts, List.append_nil]; rfl

theorem session_ne_of_ne (distinct : world.sessions.Nodup) {left right : Nat}
    {handler other : Handler} (found : world.handlers[left]? = some handler)
    (found_other : world.handlers[right]? = some other) (differ : left ≠ right) :
    handler.session ≠ other.session := by
  intro same
  have inside : left < world.sessions.length := by
    rw [sessions, List.length_map]
    exact (List.getElem?_eq_some_iff.1 found).1
  refine differ ((List.getElem?_inj inside distinct).1 ?_)
  rw [sessions, List.getElem?_map, List.getElem?_map, found, found_other, Option.map_some,
    Option.map_some, same]

/-- A handler that is finished stays so. -/
theorem Moves.finished_mem {move : ServerMove} (moves : world.Moves move later) {handler : Handler}
    (member : handler ∈ world.handlers) (finished : handler.phase = .finished) :
    handler ∈ later.handlers := by
  cases moves with
  | accepts_lines => exact List.mem_append_left _ member
  | accepts_webSocket => exact List.mem_append_left _ member
  | @handles position event other after phase found unfinished moves =>
      obtain ⟨place, at_place⟩ := List.getElem?_of_mem member
      have differs : position ≠ place := by
        rintro rfl
        rw [found] at at_place
        cases at_place
        exact unfinished finished
      refine List.mem_of_getElem? (i := place) ?_
      rw [List.getElem?_set_ne differs, at_place]
  | elsewhere => exact member

/-! ### Clients and handlers -/

/-- The clients are the sessions of those handlers that have opened one and not closed it. -/
structure Orderly (world : ServerWorld) : Prop where
  serves : world.server.hub.ServesOnly world.server.clients
  handled : ∀ session ∈ world.server.clients, session ∈ world.sessions
  open_iff : ∀ handler ∈ world.handlers,
    handler.session ∈ world.server.clients ↔ handler.phase.hasSession = true

theorem orderly_start {hub : Hub} (serves : hub.ServesOnly []) : (start hub).Orderly where
  serves := serves
  handled := fun _ member => absurd member List.not_mem_nil
  open_iff := fun _ member => absurd member List.not_mem_nil

namespace Orderly

/-- A session that is accepted is new. -/
theorem new_of_nodup (orderly : world.Orderly) {session : String}
    (distinct : (world.sessions ++ [session]).Nodup) :
    session ∉ world.server.clients ∧ ∀ handler ∈ world.handlers, handler.session ≠ session := by
  have unhandled : session ∉ world.sessions := fun present =>
    List.disjoint_of_nodup_append distinct present (List.mem_singleton_self session)
  refine ⟨fun present => unhandled (orderly.handled session present), ?_⟩
  rintro handler member rfl
  exact unhandled (List.mem_map_of_mem member)

private theorem of_accepts_lines (orderly : world.Orderly) {session : String}
    (distinct : (world.sessions ++ [session]).Nodup) :
    Orderly ⟨world.server.openConnection session (.lines .empty),
      world.handlers ++ [⟨session, .lines, .serving⟩]⟩ := by
  obtain ⟨no_client, others⟩ := orderly.new_of_nodup distinct
  refine ⟨?_, fun other present => ?_, fun handler member => ?_⟩
  · rw [Server.clients_openConnection]
    exact orderly.serves.openSession no_client
  · rw [Server.clients_openConnection] at present
    rw [sessions, List.map_append]
    exact (List.mem_append.1 present).elim
      (fun before => List.mem_append_left _ (orderly.handled other before))
      (fun new => List.mem_append_right _ new)
  · rw [Server.clients_openConnection, List.mem_append, List.mem_singleton]
    rcases List.mem_append.1 member with before | new
    · rw [or_iff_left (others handler before)]
      exact orderly.open_iff handler before
    · cases List.mem_singleton.1 new
      exact iff_of_true (.inr rfl) rfl

private theorem of_accepts_webSocket (orderly : world.Orderly) {session : String}
    (mode : InitialMode) (distinct : (world.sessions ++ [session]).Nodup) :
    Orderly { world with
      handlers := world.handlers ++ [⟨session, .webSocket, .greeting mode⟩] } := by
  obtain ⟨no_client, -⟩ := orderly.new_of_nodup distinct
  refine ⟨orderly.serves, fun other present => ?_, fun handler member => ?_⟩
  · rw [sessions, List.map_append]
    exact List.mem_append_left _ (orderly.handled other present)
  · rcases List.mem_append.1 member with before | new
    · exact orderly.open_iff handler before
    · cases List.mem_singleton.1 new
      exact iff_of_false no_client Bool.false_ne_true

/-- Each handler has a session of its own, so what one does leaves the clients of the others. -/
theorem of_handles (orderly : world.Orderly) (distinct : world.sessions.Nodup) {position : Nat}
    {handler : Handler} {after : Server} {phase : HandlerPhase}
    (found : world.handlers[position]? = some handler)
    (moves : handler.Moves world.server after phase) :
    Orderly ⟨after, world.handlers.set position { handler with phase }⟩ := by
  have member := List.mem_of_getElem? found
  have own := orderly.open_iff handler member
  refine ⟨moves.serves orderly.serves own, fun session present => ?_, fun other there => ?_⟩
  · rw [sessions_set found]
    by_cases same : session = handler.session
    · exact same ▸ List.mem_map_of_mem member
    · exact orderly.handled session ((moves.other_client_iff same).1 present)
  · obtain ⟨place, at_place⟩ := List.getElem?_of_mem there
    by_cases same : position = place
    · have inside := (List.getElem?_eq_some_iff.1 found).1
      rw [← same, List.getElem?_set_self inside] at at_place
      cases at_place
      exact moves.client_iff own
    · rw [List.getElem?_set_ne same] at at_place
      have other_member := List.mem_of_getElem? at_place
      refine (moves.other_client_iff ?_).trans (orderly.open_iff other other_member)
      exact session_ne_of_ne distinct at_place found (Ne.symm same)

/-- One move, by whomever. -/
theorem step (orderly : world.Orderly) {move : ServerMove} (moves : world.Moves move later)
    (distinct : later.sessions.Nodup) : later.Orderly := by
  have sessions_eq := moves.sessions_eq
  cases moves with
  | accepts_lines session => exact orderly.of_accepts_lines (sessions_eq ▸ distinct)
  | accepts_webSocket session query mode =>
      exact orderly.of_accepts_webSocket mode (sessions_eq ▸ distinct)
  | handles found _ moves =>
      refine orderly.of_handles ?_ found moves
      rwa [sessions_eq, show ServerMove.accepted [.handle _ _] = [] from rfl, List.append_nil]
        at distinct
  | @elsewhere _ server _ connections serves =>
      have clients : server.clients = world.server.clients :=
        congrArg (List.map Connection.session) connections
      have still_serves : server.hub.ServesOnly server.clients :=
        clients ▸ serves _ orderly.serves
      have still_handled : ∀ session ∈ server.clients, session ∈ world.sessions :=
        clients ▸ orderly.handled
      have still_open_iff : ∀ handler ∈ world.handlers,
          handler.session ∈ server.clients ↔ handler.phase.hasSession = true :=
        clients ▸ orderly.open_iff
      exact ⟨still_serves, still_handled, still_open_iff⟩

end Orderly

/-! ### Runs -/

theorem accepted_cons (move : ServerMove) (moves : List ServerMove) :
    ServerMove.accepted (move :: moves) =
      ServerMove.accepted [move] ++ ServerMove.accepted moves := by
  cases move <;> rfl

private theorem accepted_append (moves more : List ServerMove) :
    ServerMove.accepted (moves ++ more) =
      ServerMove.accepted moves ++ ServerMove.accepted more := by
  induction moves with
  | nil => rfl
  | cons move moves induction_step =>
      rw [List.cons_append, accepted_cons, induction_step, accepted_cons move moves,
        List.append_assoc]

/-- As long as no session is accepted twice, the handlers keep order. -/
theorem Orderly.steps (orderly : world.Orderly) {moves : List ServerMove}
    (distinct : (world.sessions ++ ServerMove.accepted moves).Nodup)
    (reached : world.steps moves = some later) :
    later.Orderly ∧ later.sessions = world.sessions ++ ServerMove.accepted moves ∧
      ∀ handler ∈ world.handlers, handler.phase = .finished → handler ∈ later.handlers := by
  induction moves generalizing world with
  | nil =>
      cases reached
      exact ⟨orderly, (List.append_nil _).symm, fun _ member _ => member⟩
  | cons move moves induction_step =>
      obtain ⟨next, stepped, reached⟩ := Option.bind_eq_some_iff.1 reached
      have moved := moves_of_step stepped
      rw [accepted_cons, ← List.append_assoc, ← moved.sessions_eq] at distinct ⊢
      have next_orderly := orderly.step moved distinct.of_append_left
      obtain ⟨later_orderly, later_sessions, stays⟩ :=
        induction_step next_orderly distinct reached
      exact ⟨later_orderly, later_sessions, fun handler member finished =>
        stays handler (moved.finished_mem member finished) finished⟩

/-- A connection whose handler is finished has left nothing behind, and nothing comes back: not even
from messages of its client that the worker deals with afterwards. -/
theorem finished_leaves_nothing {config : Config} {hub : Hub}
    (made : Hub.ofConfig config = .ok hub) {moves more : List ServerMove}
    (distinct : (ServerMove.accepted (moves ++ more)).Nodup)
    (single : broadcastSession ∉ ServerMove.accepted (moves ++ more))
    (reached : (start hub).steps moves = some world) {handler : Handler}
    (connected : handler ∈ world.handlers) (finished : handler.phase = .finished)
    (reached_later : world.steps more = some later) :
    later.server.hub.Forgot handler.session := by
  rw [accepted_append] at distinct single
  obtain ⟨orderly, sessions_eq, -⟩ :=
    (orderly_start (Hub.serves_of_ofConfig made)).steps distinct.of_append_left reached
  rw [show (start hub).sessions = [] from rfl, List.nil_append] at sessions_eq
  have accepted := List.mem_map_of_mem (f := Handler.session) connected
  rw [← sessions_eq] at distinct single
  obtain ⟨later_orderly, -, stays⟩ := orderly.steps distinct reached_later
  have absent : handler.session ∉ later.server.clients := by
    rw [later_orderly.open_iff handler (stays handler connected finished), finished]
    exact Bool.false_ne_true
  refine later_orderly.serves.forgot (fun same => single ?_) absent
  exact List.mem_append_left _ (same ▸ accepted)

/-- A request for everything of the local vessel. -/
def subscribeSelf : String :=
  "\x7b\"context\":\"vessels.self\",\"subscribe\":[\x7b\"path\":\"*\"\x7d]\x7d"

/-- A WebSocket client is subscribed at first, subscribes once more, and is gone before the worker
looks at that. Another client is connected all the time. -/
def deckLeaves : List ServerMove :=
  [.connectLines "mast", .connectWebSocket "deck" none, .handle 1 .wrote, .handle 1 .subscribe,
    .handle 1 (.text subscribeSelf), .handle 1 .submit, .handle 1 .closeFrame, .handle 1 .close]

theorem deckLeaves_possible :
    ((start (.fresh .standard)).steps deckLeaves).isSome = true := by
  decide +kernel

def deckLeft : ServerWorld := ((start (.fresh .standard)).steps deckLeaves).get deckLeaves_possible

/-- The world when the worker has dealt with what the client had sent. -/
def deckServed : ServerWorld :=
  ⟨deckLeft.server.work ⟨0, 0⟩, deckLeft.handlers⟩

/-- A client that leaves a request to be subscribed behind is forgotten all the same, once the
worker has dealt with that request. -/
theorem deckServed_forgot :
    Hub.ofConfig .standard = .ok (.fresh .standard) ∧
      deckLeft.handlers.map Handler.phase = [.serving, .finished] ∧
      deckLeft.server.hub.router.jobs.length = 1 ∧
      deckLeft.server.inbox = [⟨some "deck", subscribeSelf⟩] ∧
      deckServed.server.inbox = [] ∧ deckServed.server.hub.Forgot "deck" := by
  have made : Hub.ofConfig .standard = .ok (.fresh .standard) := rfl
  have connected : ⟨"deck", .webSocket, .finished⟩ ∈ deckLeft.handlers := by decide +kernel
  have later : deckLeft.steps [.work ⟨0, 0⟩] = some deckServed := rfl
  have forgot := finished_leaves_nothing made (by decide) (by decide)
    (Option.some_get deckLeaves_possible).symm connected rfl later
  exact ⟨made, by decide +kernel, by decide +kernel, by decide +kernel, by decide +kernel, forgot⟩

end ServerWorld

end VesselHub
