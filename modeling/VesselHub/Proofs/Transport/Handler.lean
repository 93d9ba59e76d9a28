/-
Module: VesselHub.Proofs.Transport.Handler
Purpose: What a step of a connection's handler is to the hub, and who is a client after it.
Main exports: Handler.Moves, Handler.Turns, Handler.turns_of_step, Handler.moves_of_step,
  Handler.Moves.serves, Handler.Moves.client_iff, Handler.Moves.other_client_iff
-/
import VesselHub.Proofs.Hub.Clients
import VesselHub.Transport.Handler

namespace VesselHub

/-! ### Clients of a server -/

namespace Server

variable {server : Server} {session : String}

theorem clients_openConnection (server : Server) (session : String) (channel : Channel) :
    (server.openConnection session channel).clients = server.clients ++ [session] := by
  rw [clients, openConnection, List.map_append]
  rfl

theorem clients_setChannel (server : Server) (session : String) (channel : Channel) :
    (server.setChannel session channel).clients = server.clients := by
  rw [clients, setChannel, List.map_map, clients]
  refine List.map_congr_left fun connection _ => ?_
  rw [Function.comp_apply]
  split <;> rfl

theorem connection?_eq_none_iff : server.connection? session = none ↔ session ∉ server.clients := by
  rw [connection?, List.find?_eq_none, clients, List.mem_map, not_exists]
  refine forall_congr' fun connection => ?_
  rw [beq_iff_eq, not_and]

theorem clients_finish (server : Server) (session : String) :
    (server.finish session).clients = server.clients.filter (· != session) := by
  cases found : server.connection? session with
  | none =>
      rw [finish, found]
      have absent := connection?_eq_none_iff.1 found
      refine (List.filter_eq_self.2 fun other member => ?_).symm
      rw [bne_iff_ne]
      rintro rfl
      exact absent member
  | some connection =>
      rw [finish, found, clients, clients, List.filter_map]
      rfl

theorem serves_subscribeInitially {hub : Hub} {clients : List String}
    (serves : hub.ServesOnly clients) (session : String) (mode : InitialMode) :
    (subscribeInitially hub session mode).ServesOnly clients := by
  rw [subscribeInitially]
  split
  · exact serves
  · exact serves.subscribe session _

theorem serves_finish (serves : server.hub.ServesOnly server.clients) (session : String) :
    (server.finish session).hub.ServesOnly (server.finish session).clients := by
  rw [clients_finish, finish]
  cases found : server.connection? session with
  | none =>
      exact serves.more (serves.distinct_clients.filter _) fun other member =>
        List.mem_filter.2 ⟨member, by
          rw [bne_iff_ne]
          rintro rfl
          exact connection?_eq_none_iff.1 found member⟩
  | some connection => exact (serves.closeSession session).keep rfl rfl rfl rfl

end Server

/-! ### Steps of a handler -/

namespace Handler

/-- What a step of a handler is to the hub. -/
inductive Moves (server : Server) (handler : Handler) : Server → HandlerPhase → Prop where
  | opens {mode : InitialMode} (greeting : handler.phase = .greeting mode) :
      Moves server handler (server.openConnection handler.session .webSocket) (.subscribing mode)
  | subscribes {mode : InitialMode} (subscribing : handler.phase = .subscribing mode) :
      Moves server handler
        { server with hub := Server.subscribeInitially server.hub handler.session mode } .serving
  | closes (leaving : handler.phase = .leaving) :
      Moves server handler (server.finish handler.session) .finished
  /-- All that changes in the hub is what waits for sessions. -/
  | goesOn {after : Server} {phase : HandlerPhase}
      (stays : phase.hasSession = handler.phase.hasSession)
      (hub : after.hub = { server.hub with sessions := after.hub.sessions })
      (current : after.hub.sessions.current = server.hub.sessions.current)
      (clients : after.clients = server.clients) : Moves server handler after phase

/-- How a step of a handler leaves the server and the handler itself. -/
inductive Turns (server : Server) (handler : Handler) : Server → HandlerPhase → Prop where
  | opens {mode : InitialMode} (greeting : handler.phase = .greeting mode) :
      Turns server handler (server.openConnection handler.session .webSocket) (.subscribing mode)
  | subscribes {mode : InitialMode} (subscribing : handler.phase = .subscribing mode) :
      Turns server handler
        { server with hub := Server.subscribeInitially server.hub handler.session mode } .serving
  | closes (leaving : handler.phase = .leaving) :
      Turns server handler (server.finish handler.session) .finished
  | reads (serving : handler.phase = .serving) (channel : Channel) :
      Turns server handler (server.setChannel handler.session channel) .serving
  | takes {connection : Connection} {phase : HandlerPhase} (serving : handler.phase = .serving)
      (stays : phase.hasSession = true)
      (connected : server.connection? handler.session = some connection) :
      Turns server handler { server with hub := { server.hub with
        sessions := (server.hub.sessions.receive connection.registration (some 1)).1 } } phase
  /-- Hub and connections are left alone. -/
  | goesOn {after : Server} {phase : HandlerPhase}
      (stays : phase.hasSession = handler.phase.hasSession) (same_hub : after.hub = server.hub)
      (same_connections : after.connections = server.connections) :
      Turns server handler after phase

private theorem Turns.stays {server : Server} {handler : Handler} {before phase : HandlerPhase}
    (was : handler.phase = before) (stays : phase.hasSession = before.hasSession) :
    Turns server handler server phase :=
  .goesOn (by rw [was, stays]) rfl rfl

private theorem turns_of_take {server after : Server} {handler : Handler} {phase : HandlerPhase}
    (serving : handler.phase = .serving) (taken : handler.take server = some (after, phase)) :
    Turns server handler after phase := by
  rw [take] at taken
  split at taken
  · cases taken
  · rename_i connection connected
    dsimp only at taken
    split at taken
    · cases taken
      exact .takes serving rfl connected
    · split at taken
      · cases taken
        exact .takes serving rfl connected
      · cases taken

theorem turns_of_step {server after : Server} {handler : Handler} {event : HandlerEvent}
    {phase : HandlerPhase} {outputs : Outputs}
    (stepped : handler.step server event = some (after, phase, outputs)) :
    Turns server handler after phase := by
  rw [step] at stepped
  split at stepped
  case isFalse => cases stepped
  unfold act at stepped
  split at stepped
  -- The greeting was written, or could not be.
  case h_1 greeting _ =>
    cases stepped
    exact .opens greeting
  case h_2 greeting _ =>
    cases stepped
    exact .stays greeting rfl
  case h_3 subscribing _ =>
    cases stepped
    exact .subscribes subscribing
  -- A text that is a message or blank, the beginning of a line, and what is queued.
  case h_4 serving _ =>
    split at stepped <;> cases stepped <;> exact .stays serving rfl
  case h_5 serving _ =>
    cases stepped
    exact .reads serving _
  case h_12 serving _ =>
    obtain ⟨taken, taken_eq, same⟩ := Option.map_eq_some_iff.1 stepped
    cases same
    exact turns_of_take serving taken_eq
  -- The inbox takes a message, or there is none any more.
  case h_13 submitting _ =>
    cases ingesting : server.isIngesting
    all_goals
      simp only [Server.submit, ingesting, if_true, if_false, Bool.false_eq_true] at stepped
      cases stepped
      exact .goesOn (by rw [submitting]; rfl) rfl rfl
  case h_16 leaving _ =>
    cases stepped
    exact .closes leaving
  case h_17 => cases stepped
  -- Whatever else happens leaves the server as it is.
  all_goals
    rename_i was _
    cases stepped
    exact .stays was rfl

theorem current_receive (sessions : Sessions) (number : Nat) (limit : Option Nat) :
    (sessions.receive number limit).1.current = sessions.current := by
  rw [Sessions.receive]
  split <;> rfl

theorem moves_of_step {server after : Server} {handler : Handler} {event : HandlerEvent}
    {phase : HandlerPhase} {outputs : Outputs}
    (stepped : handler.step server event = some (after, phase, outputs)) :
    Moves server handler after phase := by
  cases turns_of_step stepped with
  | opens greeting => exact .opens greeting
  | subscribes subscribing => exact .subscribes subscribing
  | closes leaving => exact .closes leaving
  | reads serving channel =>
      exact .goesOn (by rw [serving]) rfl rfl (Server.clients_setChannel ..)
  | takes serving stays connected =>
      exact .goesOn (by rw [serving, stays]; rfl) rfl (current_receive ..) rfl
  | goesOn stays same_hub same_connections =>
      refine .goesOn stays (by rw [same_hub]) (by rw [same_hub]) ?_
      rw [Server.clients, same_connections, Server.clients]

/-! ### Clients after a step -/

namespace Moves

variable {server after : Server} {handler : Handler} {phase : HandlerPhase}

/-- The greeting comes before the session, so it is no client's session yet when it is opened. -/
theorem serves (moves : Moves server handler after phase)
    (serves : server.hub.ServesOnly server.clients)
    (open_iff : handler.session ∈ server.clients ↔ handler.phase.hasSession = true) :
    after.hub.ServesOnly after.clients := by
  cases moves with
  | opens greeting =>
      rw [Server.clients_openConnection]
      refine serves.openSession fun present => ?_
      have has := open_iff.1 present
      rw [greeting] at has
      cases has
  | subscribes => exact Server.serves_subscribeInitially serves handler.session _
  | closes => exact Server.serves_finish serves handler.session
  | goesOn stays hub current clients =>
      rw [clients, hub]
      exact serves.keep rfl rfl rfl current

theorem client_iff (moves : Moves server handler after phase)
    (open_iff : handler.session ∈ server.clients ↔ handler.phase.hasSession = true) :
    handler.session ∈ after.clients ↔ phase.hasSession = true := by
  cases moves with
  | opens greeting =>
      rw [Server.clients_openConnection]
      exact iff_of_true (List.mem_append_right _ (List.mem_singleton_self _)) rfl
  | subscribes subscribing =>
      refine iff_of_true (open_iff.2 ?_) rfl
      rw [subscribing]
      rfl
  | closes =>
      rw [Server.clients_finish]
      refine iff_of_false (fun present => ?_) Bool.false_ne_true
      exact bne_iff_ne.1 (List.mem_filter.1 present).2 rfl
  | goesOn stays hub current clients => rw [clients, open_iff, stays]

theorem other_client_iff (moves : Moves server handler after phase) {other : String}
    (differs : other ≠ handler.session) : other ∈ after.clients ↔ other ∈ server.clients := by
  cases moves with
  | opens =>
      rw [Server.clients_openConnection, List.mem_append, List.mem_singleton, or_iff_left differs]
  | subscribes => exact Iff.rfl
  | closes =>
      rw [Server.clients_finish, List.mem_filter, bne_iff_ne]
      exact and_iff_left differs
  | goesOn stays hub current clients => rw [clients]

end Moves

/-- A handler that is finished does nothing any more. -/
theorem step_of_finished {server : Server} {handler : Handler}
    (finished : handler.phase = .finished) (event : HandlerEvent) :
    handler.step server event = none := by
  simp only [step, act, finished, ite_self]

end Handler

end VesselHub
