/-
Module: VesselHub.Proofs.Transport.LineWorld
Purpose: In every run of a server, with all its handlers, the worker and the jobs taking their steps
  in any order, each connection of lines is a client of lines, so it reads what was delivered.
Main exports: Handler.Acts, Handler.acts_of_step, ServerWorld.Follows, ServerWorld.Follows.handles,
  ServerWorld.lineClient_of_steps
-/
import VesselHub.Proofs.Hub.Spared
import VesselHub.Proofs.Transport.LineClient
import VesselHub.Proofs.Transport.World

namespace VesselHub

open Sessions (Spared)

/-! ### Registrations of connections -/

namespace Server

/-- Each connection has a registration that exists. -/
def Registered (server : Server) : Prop :=
  ∀ connection ∈ server.connections,
    connection.registration < server.hub.sessions.mailboxes.length

/-- A registration is that of one session's connection, as long as there is one. -/
def Owns (server : Server) (session : String) (number : Nat) : Prop :=
  ∀ connection ∈ server.connections,
    connection.registration = number → connection.session = session

variable {server : Server} {session other : String}

theorem connection?_openConnection_of_ne (differs : other ≠ session) (channel : Channel) :
    (server.openConnection session channel).connection? other = server.connection? other := by
  have not_new : (session == other) = false := beq_false_of_ne (Ne.symm differs)
  rw [connection?, openConnection, List.find?_append, List.find?_singleton, not_new]
  simp [connection?]

theorem connection?_setChannel_of_ne (differs : other ≠ session) (channel : Channel) :
    (server.setChannel session channel).connection? other = server.connection? other := by
  rw [connection?_setChannel]
  cases found : server.connection? other with
  | none => rfl
  | some connection =>
      have satisfied := List.find?_some found
      have named : connection.session = other := beq_iff_eq.1 satisfied
      rw [Option.map_some, named, if_neg]
      rwa [beq_iff_eq]

theorem connection?_finish_of_ne (differs : other ≠ session) :
    (server.finish session).connection? other = server.connection? other := by
  rw [finish]
  split
  · rfl
  · rw [connection?, List.find?_filter, connection?]
    refine congrArg (List.find? · server.connections) (funext fun connection => ?_)
    by_cases same : connection.session = other
    · simp [same, differs]
    · simp [same]

theorem connections_work (server : Server) (now : Instant) :
    (server.work now).connections = server.connections := by
  rw [work]
  split <;> rfl

theorem spared_work {number : Nat} (server : Server) (now : Instant) :
    Spared number server.hub.sessions (server.work now).hub.sessions := by
  rw [work]
  cases server.inbox with
  | nil => exact .refl _
  | cons inbound inbox =>
      dsimp only
      exact server.hub.spared_ingest now inbound

end Server

/-! ### What a handler does to the sessions -/

namespace Handler

/-- What a step of a session's handler is to the sessions and to the connections. -/
inductive Acts (server : Server) (session : String) : Server → Prop where
  | opens (channel : Channel) : Acts server session (server.openConnection session channel)
  | closes : Acts server session (server.finish session)
  | reads (channel : Channel) : Acts server session (server.setChannel session channel)
  | takes {connection : Connection} (connected : server.connection? session = some connection) :
      Acts server session { server with hub := { server.hub with
        sessions := (server.hub.sessions.receive connection.registration (some 1)).1 } }
  | goesOn {after : Server} (same_sessions : after.hub.sessions = server.hub.sessions)
      (same_connections : after.connections = server.connections) : Acts server session after

theorem sessions_subscribeInitially (hub : Hub) (session : String) (mode : InitialMode) :
    (Server.subscribeInitially hub session mode).sessions = hub.sessions := by
  rw [Server.subscribeInitially]
  split
  · rfl
  · exact hub.sessions_subscribe session _

theorem acts_of_step {server after : Server} {handler : Handler} {event : HandlerEvent}
    {phase : HandlerPhase} {outputs : Outputs}
    (stepped : handler.step server event = some (after, phase, outputs)) :
    Acts server handler.session after := by
  cases turns_of_step stepped with
  | opens => exact .opens .webSocket
  | subscribes =>
      exact .goesOn (sessions_subscribeInitially server.hub handler.session _) rfl
  | closes => exact .closes
  | reads serving channel => exact .reads channel
  | takes serving stays connected => exact .takes connected
  | goesOn stays same_hub same_connections => exact .goesOn (by rw [same_hub]) same_connections

namespace Acts

variable {server after : Server} {session other : String} {number : Nat}

/-- Another registration is left alone. -/
theorem spared (acts : Acts server session after)
    (others : ∀ connection, server.connection? session = some connection →
      connection.registration ≠ number) :
    Spared number server.hub.sessions after.hub.sessions := by
  cases acts with
  | opens channel => exact .perform (.register session) trivial
  | closes =>
      rw [Server.finish]
      split
      · exact .refl _
      · rename_i connection connected
        exact (Spared.perform (.unregister session) trivial).trans
          (.perform (.abandon connection.registration) (others connection connected))
  | reads channel => exact .refl _
  | @takes connection connected =>
      exact .perform (.receive connection.registration (some 1)) (others connection connected)
  | goesOn same_sessions => exact same_sessions ▸ .refl _

/-- There is always a registration that is another one. -/
theorem exists_spared (acts : Acts server session after) :
    ∃ number, Spared number server.hub.sessions after.hub.sessions := by
  cases connected : server.connection? session with
  | none => exact ⟨0, acts.spared fun connection found => by cases connected.symm.trans found⟩
  | some connection =>
      refine ⟨connection.registration + 1, acts.spared fun same found => ?_⟩
      cases connected.symm.trans found
      exact Nat.ne_of_lt (Nat.lt_succ_self _)

theorem connection?_of_ne (acts : Acts server session after) (differs : other ≠ session) :
    after.connection? other = server.connection? other := by
  cases acts with
  | opens channel => exact Server.connection?_openConnection_of_ne differs channel
  | closes => exact Server.connection?_finish_of_ne differs
  | reads channel => exact Server.connection?_setChannel_of_ne differs channel
  | takes connected => rfl
  | goesOn _ same_connections => rw [Server.connection?, same_connections, Server.connection?]

/-- Every connection was there before, or it has a new registration. -/
theorem of_mem (acts : Acts server session after) {connection : Connection}
    (member : connection ∈ after.connections) :
    (∃ earlier ∈ server.connections, earlier.session = connection.session ∧
      earlier.registration = connection.registration) ∨
    (connection.registration = server.hub.sessions.mailboxes.length ∧
      connection.registration < after.hub.sessions.mailboxes.length) := by
  cases acts with
  | opens channel =>
      rcases List.mem_append.1 member with before | new
      · exact .inl ⟨connection, before, rfl, rfl⟩
      · rw [List.mem_singleton.1 new]
        refine .inr ⟨rfl, ?_⟩
        simp [Server.openConnection, Hub.openSession, Sessions.register]
  | closes =>
      rw [Server.finish] at member
      split at member
      · exact .inl ⟨connection, member, rfl, rfl⟩
      · exact .inl ⟨connection, (List.mem_filter.1 member).1, rfl, rfl⟩
  | reads channel =>
      obtain ⟨earlier, before, rfl⟩ := List.mem_map.1 member
      refine .inl ⟨earlier, before, ?_⟩
      split <;> exact ⟨rfl, rfl⟩
  | takes connected => exact .inl ⟨connection, member, rfl, rfl⟩
  | goesOn _ same_connections =>
      exact .inl ⟨connection, same_connections ▸ member, rfl, rfl⟩

theorem registered (acts : Acts server session after) (sound : server.hub.sessions.Sound)
    (registered : server.Registered) : after.Registered := by
  intro connection member
  obtain ⟨_, spared⟩ := acts.exists_spared
  rcases acts.of_mem member with ⟨earlier, before, -, same⟩ | ⟨-, new⟩
  · rw [← same]
    exact Nat.lt_of_lt_of_le (registered earlier before) (spared.length_le sound)
  · exact new

theorem owns {owner : String} (acts : Acts server session after)
    (exists_already : number < server.hub.sessions.mailboxes.length)
    (owns : server.Owns owner number) : after.Owns owner number := by
  intro connection member same_number
  rcases acts.of_mem member with ⟨earlier, before, same_session, same⟩ | ⟨new, -⟩
  · rw [← same_session]
    exact owns earlier before (same.trans same_number)
  · omega

end Acts

end Handler

/-! ### Clients of lines in a run -/

namespace LineClient

variable {server : Server} {session : String} {client : LineClient}

theorem Reachable.spared {sessions after : Sessions} (reachable : Reachable server session client)
    (same_sessions : client.server.hub.sessions = sessions)
    (spared : Spared server.hub.sessions.mailboxes.length sessions after) :
    ∃ later, Reachable server session later ∧ later.server.hub.sessions = after ∧
      later.server.connections = client.server.connections ∧ later.phase = client.phase := by
  induction spared generalizing client with
  | refl => exact ⟨client, reachable, same_sessions, rfl, rfl⟩
  | @next sessions last event spares _ induction_step =>
      have performed := reachable.step (.performs event spares)
      have onwards := induction_step performed (congrArg (·.perform event) same_sessions)
      exact onwards

/-- Whatever becomes of the server while the client's registration is spared and its connection is
left alone, a client can have come to this. -/
theorem Reachable.aside {after : Server} (reachable : Reachable server session client)
    (spared : Spared server.hub.sessions.mailboxes.length client.server.hub.sessions
      after.hub.sessions)
    (same_connection : after.connection? session = client.server.connection? session) :
    ∃ later, Reachable server session later ∧ later.server = after ∧
      later.phase = client.phase := by
  obtain ⟨between, reached, same_sessions, same_connections, same_phase⟩ :=
    reachable.spared rfl spared
  have connection_eq : after.connection? session = between.server.connection? session := by
    rw [same_connection, Server.connection?, ← same_connections, Server.connection?]
  exact ⟨_, reached.step (.changes after same_sessions.symm connection_eq), rfl, same_phase⟩

end LineClient

namespace ServerWorld

/-- The handler of a session, at a position, is that of a client of lines that has connected to a
server. -/
structure Follows (world : ServerWorld) (position : Nat) (session : String) (server : Server) :
    Prop where
  exists_already :
    server.hub.sessions.mailboxes.length < world.server.hub.sessions.mailboxes.length
  owns : world.server.Owns session server.hub.sessions.mailboxes.length
  client : ∃ client, LineClient.Reachable server session client ∧ client.server = world.server ∧
    world.handlers[position]? = some ⟨session, .lines, client.phase⟩

variable {world later : ServerWorld} {position : Nat} {session : String} {server : Server}

/-- What others do does not take the client away. -/
theorem Follows.aside (follows : world.Follows position session server)
    (sound : world.server.hub.sessions.Sound)
    (spared : Spared server.hub.sessions.mailboxes.length world.server.hub.sessions
      later.server.hub.sessions)
    (same_connection : later.server.connection? session = world.server.connection? session)
    (owns : later.server.Owns session server.hub.sessions.mailboxes.length)
    (same_handler : later.handlers[position]? = world.handlers[position]?) :
    later.Follows position session server where
  exists_already := Nat.lt_of_lt_of_le follows.exists_already (spared.length_le sound)
  owns := owns
  client := by
    obtain ⟨client, reachable, same_server, handled⟩ := follows.client
    rw [← same_server] at spared same_connection
    obtain ⟨other, reached, same_after, same_phase⟩ := reachable.aside spared same_connection
    refine ⟨other, reached, same_after, ?_⟩
    rw [same_handler, handled, same_phase]

/-- A step of the handler of another session. -/
theorem Follows.acts (follows : world.Follows position session server)
    (sound : world.server.hub.sessions.Sound) {other : String} (differs : session ≠ other)
    (acts : Handler.Acts world.server other later.server)
    (same_handler : later.handlers[position]? = world.handlers[position]?) :
    later.Follows position session server := by
  have others : ∀ connection, world.server.connection? other = some connection →
      connection.registration ≠ server.hub.sessions.mailboxes.length := by
    intro connection found same
    have satisfied := List.find?_some found
    have owner := follows.owns connection (List.mem_of_find?_eq_some found) same
    exact differs (owner.symm.trans (beq_iff_eq.1 satisfied))
  exact follows.aside sound (acts.spared others) (acts.connection?_of_ne differs)
    (acts.owns follows.exists_already follows.owns) same_handler

/-- A step of the client's handler. -/
theorem Follows.handles (follows : world.Follows position session server)
    (sound : world.server.hub.sessions.Sound) {event : HandlerEvent}
    (stepped : world.step (.handle position event) = some later) :
    later.Follows position session server := by
  obtain ⟨client, reachable, same_server, handled⟩ := follows.client
  rw [ServerWorld.step, handled] at stepped
  obtain ⟨⟨after, phase, outputs⟩, handler_stepped, rfl⟩ := Option.map_eq_some_iff.1 stepped
  have acts := Handler.acts_of_step handler_stepped
  obtain ⟨_, spared⟩ := acts.exists_spared
  refine ⟨Nat.lt_of_lt_of_le follows.exists_already (spared.length_le sound),
    acts.owns follows.exists_already follows.owns, ?_⟩
  have client_stepped : client.handle session event = some ⟨after, phase, client.delivered,
      client.written ++ outputs.map Prod.snd⟩ := by
    rw [LineClient.handle, same_server, handler_stepped]
    rfl
  have inside := (List.getElem?_eq_some_iff.1 handled).1
  exact ⟨_, reachable.step (.handles event client_stepped), rfl, List.getElem?_set_self inside⟩

/-- A client that connects now. -/
theorem follows_connectLines (registered : world.server.Registered) (session : String) :
    Follows ⟨world.server.connectLines session, world.handlers ++ [⟨session, .lines, .serving⟩]⟩
      world.handlers.length session world.server where
  exists_already := by
    simp [Server.connectLines, Hub.openSession, Sessions.register]
  owns := by
    intro connection member same
    rcases List.mem_append.1 member with before | new
    · have earlier := registered connection before
      omega
    · rw [List.mem_singleton.1 new]
  client := ⟨.connect world.server session, .connect, rfl, List.getElem?_concat_length⟩

/-- Every handler of a connection of lines is that of a client of lines. -/
structure Tracks (world : ServerWorld) : Prop where
  sound : world.server.hub.sessions.Sound
  registered : world.server.Registered
  followed : ∀ position session phase,
    world.handlers[position]? = some ⟨session, .lines, phase⟩ →
      ∃ server, server.hub.sessions.Sound ∧ session ∉ server.clients ∧
        world.Follows position session server

theorem tracks_start {hub : Hub} (sound : hub.sessions.Sound) : (start hub).Tracks where
  sound := sound
  registered := fun _ member => absurd member List.not_mem_nil
  followed := fun _ _ _ found => nomatch found

namespace Tracks

/-- The hub is used, and neither connections nor handlers are touched. -/
theorem aside (tracks : world.Tracks) (handlers : later.handlers = world.handlers)
    (connections : later.server.connections = world.server.connections)
    (spared : ∀ number, Spared number world.server.hub.sessions later.server.hub.sessions) :
    later.Tracks where
  sound := (spared 0).sound tracks.sound
  registered := by
    intro connection member
    rw [connections] at member
    exact Nat.lt_of_lt_of_le (tracks.registered connection member)
      ((spared 0).length_le tracks.sound)
  followed := by
    intro position session phase found
    rw [handlers] at found
    obtain ⟨server, sound, new, follows⟩ := tracks.followed position session phase found
    have same_connection : later.server.connection? session =
        world.server.connection? session := by
      rw [Server.connection?, connections, Server.connection?]
    have owns : later.server.Owns session server.hub.sessions.mailboxes.length := by
      rw [Server.Owns, connections]
      exact follows.owns
    exact ⟨server, sound, new,
      follows.aside tracks.sound (spared _) same_connection owns (by rw [handlers])⟩

theorem connectLines (tracks : world.Tracks) (orderly : world.Orderly) {session : String}
    (distinct : (world.sessions ++ [session]).Nodup) :
    Tracks ⟨world.server.connectLines session,
      world.handlers ++ [⟨session, .lines, .serving⟩]⟩ := by
  obtain ⟨new, others⟩ := orderly.new_of_nodup distinct
  have acts : Handler.Acts world.server session (world.server.connectLines session) :=
    .opens (.lines .empty)
  refine ⟨tracks.sound.register session, acts.registered tracks.sound tracks.registered, ?_⟩
  intro position other phase found
  rw [List.getElem?_append] at found
  split at found
  · rename_i before
    obtain ⟨server, sound, was_new, follows⟩ := tracks.followed position other phase found
    exact ⟨server, sound, was_new, follows.acts tracks.sound
      (others _ (List.mem_of_getElem? found)) acts (List.getElem?_append_left before)⟩
  · rename_i beyond
    rw [List.getElem?_singleton] at found
    split at found
    · cases found
      have at_end : position = world.handlers.length := by omega
      rw [at_end]
      exact ⟨world.server, tracks.sound, new, follows_connectLines tracks.registered session⟩
    · cases found

theorem connectWebSocket (tracks : world.Tracks) (session : String) (mode : InitialMode) :
    Tracks { world with
      handlers := world.handlers ++ [⟨session, .webSocket, .greeting mode⟩] } := by
  refine ⟨tracks.sound, tracks.registered, fun position other phase found => ?_⟩
  rw [List.getElem?_append] at found
  split at found
  · rename_i before
    obtain ⟨server, sound, new, follows⟩ := tracks.followed position other phase found
    exact ⟨server, sound, new, follows.aside tracks.sound (.refl _) rfl follows.owns
      (List.getElem?_append_left before)⟩
  · rw [List.getElem?_singleton] at found
    split at found <;> cases found

theorem handle (tracks : world.Tracks) (distinct : world.sessions.Nodup) {position : Nat}
    {event : HandlerEvent} (stepped : world.step (.handle position event) = some later) :
    later.Tracks := by
  have whole := stepped
  rw [ServerWorld.step] at stepped
  cases at_position : world.handlers[position]? with
  | none =>
      rw [at_position] at stepped
      cases stepped
  | some handler =>
      rw [at_position] at stepped
      obtain ⟨⟨after, phase, outputs⟩, handler_stepped, rfl⟩ := Option.map_eq_some_iff.1 stepped
      have acts := Handler.acts_of_step handler_stepped
      obtain ⟨_, spared⟩ := acts.exists_spared
      refine ⟨spared.sound tracks.sound, acts.registered tracks.sound tracks.registered, ?_⟩
      intro place session other_phase found
      by_cases same : position = place
      · rw [← same] at found ⊢
        have inside := (List.getElem?_eq_some_iff.1 at_position).1
        rw [List.getElem?_set_self inside] at found
        obtain ⟨own, carrier, before⟩ := handler
        cases found
        obtain ⟨server, sound, new, follows⟩ := tracks.followed position _ _ at_position
        exact ⟨server, sound, new, follows.handles tracks.sound whole⟩
      · have still : (world.handlers.set position { handler with phase })[place]? =
            world.handlers[place]? := List.getElem?_set_ne same
        rw [still] at found
        obtain ⟨server, sound, new, follows⟩ := tracks.followed place _ _ found
        have differs : session ≠ handler.session :=
          session_ne_of_ne distinct found at_position (Ne.symm same)
        exact ⟨server, sound, new, follows.acts tracks.sound differs acts still⟩

/-- One move, by whomever. -/
theorem step (tracks : world.Tracks) (orderly : world.Orderly) {move : ServerMove}
    (stepped : world.step move = some later) (distinct : later.sessions.Nodup) :
    later.Tracks := by
  have sessions_eq := (moves_of_step stepped).sessions_eq
  cases move with
  | connectLines session =>
      cases stepped
      exact tracks.connectLines orderly (sessions_eq ▸ distinct)
  | connectWebSocket session query =>
      cases stepped
      exact tracks.connectWebSocket session _
  | handle position event =>
      rw [sessions_eq] at distinct
      exact tracks.handle distinct.of_append_left stepped
  | work now =>
      cases stepped
      exact tracks.aside rfl (world.server.connections_work now) fun _ =>
        world.server.spared_work now
  | stopIngest =>
      cases stepped
      exact tracks.aside rfl rfl fun _ => .refl _
  | feed text =>
      cases stepped
      cases ingesting : world.server.isIngesting
      all_goals
        simp only [Server.submit, ingesting, if_true, if_false, Bool.false_eq_true]
        exact tracks.aside rfl rfl fun _ => .refl _
  | unregister session =>
      cases stepped
      exact tracks.aside rfl rfl fun _ => .perform (.unregister session) trivial
  | hub event =>
      rw [ServerWorld.step] at stepped
      split at stepped
      · cases stepped
      · cases stepped
        exact tracks.aside rfl rfl fun _ => world.server.hub.spared_perform event

theorem steps (tracks : world.Tracks) (orderly : world.Orderly) {moves : List ServerMove}
    (distinct : (world.sessions ++ ServerMove.accepted moves).Nodup)
    (reached : world.steps moves = some later) : later.Tracks := by
  induction moves generalizing world with
  | nil =>
      cases reached
      exact tracks
  | cons move moves induction_step =>
      obtain ⟨next, stepped, reached⟩ := Option.bind_eq_some_iff.1 reached
      have moved := moves_of_step stepped
      rw [accepted_cons, ← List.append_assoc, ← moved.sessions_eq] at distinct
      have next_distinct := distinct.of_append_left
      exact induction_step (tracks.step orderly stepped next_distinct)
        (orderly.step moved next_distinct) distinct reached

end Tracks

/-- However a run of a server has gone, the handler of a connection of lines is that of a client
that has connected to it at some time, and the client reads what was delivered to its session. -/
theorem lineClient_of_steps {config : Config} {hub : Hub} (made : Hub.ofConfig config = .ok hub)
    {moves : List ServerMove} (distinct : (ServerMove.accepted moves).Nodup)
    (reached : (start hub).steps moves = some world) {handler : Handler}
    (member : handler ∈ world.handlers) (lines : handler.carrier = .lines) :
    ∃ server client, LineClient.Reachable server handler.session client ∧
      client.server = world.server ∧ client.phase = handler.phase ∧
      ∃ count, client.Reads server.hub.sessions.mailboxes.length count := by
  have sound : hub.sessions.Sound := by
    rw [Hub.ofConfig] at made
    split at made
    · cases made
      exact .ofCapacity config.sessionQueue
    · cases made
  have orderly := orderly_start (Hub.serves_of_ofConfig made)
  have tracks := (tracks_start sound).steps orderly distinct reached
  obtain ⟨position, found⟩ := List.getElem?_of_mem member
  obtain ⟨session, carrier, phase⟩ := handler
  cases lines
  obtain ⟨server, sound, new, follows⟩ := tracks.followed position session phase found
  obtain ⟨client, reachable, same_server, handled⟩ := follows.client
  rw [found] at handled
  cases handled
  exact ⟨server, client, reachable, same_server, rfl, _, (reachable.kept sound new).reads⟩

end ServerWorld

end VesselHub
