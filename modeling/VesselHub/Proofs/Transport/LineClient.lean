/-
Module: VesselHub.Proofs.Transport.LineClient
Purpose: A client of lines reads the texts of the payloads that were delivered to its session: in
  order, none of them split, joined to another, or left out.
Main exports: Handler.Attends, Handler.Attends.step, LineClient, LineClient.Step,
  LineClient.Reachable, LineClient.Kept.step, LineClient.reads_delivered
-/
import VesselHub.Proofs.Session.Spared
import VesselHub.Proofs.Transport.Handler
import VesselHub.Proofs.Transport.Lines

namespace VesselHub

/-- A text as it is written to a client of lines. -/
def Output.ofLine (text : String) : Output := .line (frameLine text)

/-- What an output adds to what a client of lines reads. -/
def Output.carried : Output → String
  | .line terminated => terminated
  | _ => ""

/-- What a handler that attends to its session has taken from the queue and not written yet. -/
def HandlerPhase.taken? : HandlerPhase → Option (List Output)
  | .serving => some []
  | .submitting _ => some []
  | .writing output => some [output]
  | _ => none

/-! ### Connections of lines -/

namespace Server

variable {server : Server} {session : String}

theorem connection?_setChannel (server : Server) (session other : String) (channel : Channel) :
    (server.setChannel session channel).connection? other =
      (server.connection? other).map fun connection =>
        if connection.session == session then { connection with channel } else connection := by
  rw [connection?, setChannel, List.find?_map, connection?]
  have same : ((fun connection : Connection => connection.session == other) ∘ fun connection =>
      if connection.session == session then { connection with channel } else connection) =
        fun connection => connection.session == other := by
    funext connection
    rw [Function.comp_apply]
    split <;> rfl
  rw [same]

theorem connection?_connectLines (new : session ∉ server.clients) :
    (server.connectLines session).connection? session =
      some ⟨session, server.hub.sessions.mailboxes.length, .lines .empty⟩ := by
  have absent : server.connections.find? (fun connection => connection.session == session) =
      none := connection?_eq_none_iff.2 new
  rw [connection?, connectLines, List.find?_append, absent]
  simp [Hub.openSession, Sessions.register]

end Server

namespace Handler

/-- The handler of a connection of lines attends to its session. What it has taken from the queue
and what waits there is `due` to be written. -/
structure Attends (server : Server) (session : String) (number : Nat) (phase : HandlerPhase)
    (due : List Output) : Prop where
  sound : server.hub.sessions.Sound
  connected : ∃ buffer, server.connection? session = some ⟨session, number, .lines buffer⟩
  due_eq : ∃ taken, phase.taken? = some taken ∧
    taken ++ (server.hub.sessions.waitingAt number).map .ofLine = due

namespace Attends

variable {server after : Server} {session : String} {number : Nat} {phase later : HandlerPhase}
  {due : List Output} {outputs : Outputs}

theorem connectLines (sound : server.hub.sessions.Sound) (new : session ∉ server.clients) :
    Attends (server.connectLines session) session server.hub.sessions.mailboxes.length .serving
      [] where
  sound := sound.register session
  connected := ⟨.empty, Server.connection?_connectLines new⟩
  due_eq := by
    have nothing_waits : (server.connectLines session).hub.sessions.waitingAt
        server.hub.sessions.mailboxes.length = [] := by
      refine (Sessions.waitingAt_register ..).trans ?_
      rw [Sessions.waitingAt, List.getElem?_eq_none (Nat.le_refl _)]
      rfl
    exact ⟨[], rfl, by rw [nothing_waits]; rfl⟩

/-- Nothing changes for the handler but its phase. -/
theorem goesOn (attends : Attends server session number phase due)
    (same_taken : later.taken? = phase.taken?)
    (same_sessions : after.hub.sessions = server.hub.sessions)
    (connected : ∃ buffer, after.connection? session = some ⟨session, number, .lines buffer⟩) :
    Attends after session number later due where
  sound := same_sessions ▸ attends.sound
  connected := connected
  due_eq := by
    rw [same_taken, same_sessions]
    exact attends.due_eq

/-- What happens to the sessions elsewhere makes more payloads due. -/
theorem perform (attends : Attends server session number phase due) {event : SessionEvent}
    (spares : event.Spares number) :
    Attends
      { server with hub := { server.hub with sessions := server.hub.sessions.perform event } }
      session number phase (due ++ (server.hub.sessions.deliveredBy number event).map
        fun payload => .ofLine payload.compact) where
  sound := attends.sound.perform event
  connected := attends.connected
  due_eq := by
    obtain ⟨taken, taken_eq, rfl⟩ := attends.due_eq
    refine ⟨taken, taken_eq, ?_⟩
    rw [Sessions.waitingAt_perform_of_spares attends.sound spares, List.map_append,
      List.map_map, List.append_assoc]
    rfl

/-- One text at a time is taken from the queue. -/
private theorem take (attends : Attends server session number .serving due)
    (taken : Handler.take server ⟨session, .lines, .serving⟩ = some (after, later)) :
    later = .leaving ∨ Attends after session number later due := by
  obtain ⟨_, none_taken, rfl⟩ := attends.due_eq
  cases none_taken
  obtain ⟨buffer, connected⟩ := attends.connected
  have parts := Sessions.texts_receive server.hub.sessions number (some 1)
  have sound := attends.sound.receive number (some 1)
  rw [Handler.take, connected] at taken
  dsimp only at taken
  split at taken
  · rename_i text rest received
    cases taken
    rw [received, Sessions.texts_receive_one received] at parts
    refine .inr ⟨sound, ⟨buffer, connected⟩, [.ofLine text], rfl, ?_⟩
    rw [← parts, List.map_append]
    rfl
  · split at taken
    · cases taken
      exact .inl rfl
    · cases taken

private theorem step_serving (attends : Attends server session number .serving due)
    {event : HandlerEvent} (stepped : Handler.step server ⟨session, .lines, .serving⟩ event =
      some (after, later, outputs)) :
    outputs = [] ∧ (later = .leaving ∨ Attends after session number later due) := by
  cases event with
  | text text =>
      simp only [Handler.step, HandlerEvent.suits, act, if_true] at stepped
      split at stepped <;> cases stepped <;>
        exact ⟨rfl, .inr (attends.goesOn rfl rfl attends.connected)⟩
  | buffered buffer =>
      cases stepped
      obtain ⟨before, connected⟩ := attends.connected
      refine ⟨rfl, .inr (attends.goesOn rfl rfl ⟨buffer, ?_⟩)⟩
      rw [Server.connection?_setChannel, connected, Option.map_some, if_pos (beq_self_eq_true _)]
  | take =>
      obtain ⟨taken, taken_eq, same⟩ := Option.map_eq_some_iff.1 stepped
      cases same
      exact ⟨rfl, attends.take taken_eq⟩
  | readError =>
      cases stepped
      exact ⟨rfl, .inl rfl⟩
  | ended =>
      cases stepped
      exact ⟨rfl, .inl rfl⟩
  | _ => cases stepped

private theorem step_submitting {text : String}
    (attends : Attends server session number (.submitting text) due) {event : HandlerEvent}
    (stepped : Handler.step server ⟨session, .lines, .submitting text⟩ event =
      some (after, later, outputs)) :
    outputs = [] ∧ (later = .leaving ∨ Attends after session number later due) := by
  cases event with
  | submit =>
      cases ingesting : server.isIngesting with
      | true =>
          simp only [Handler.step, HandlerEvent.suits, act, Server.submit, ingesting, if_true]
            at stepped
          cases stepped
          exact ⟨rfl, .inr (attends.goesOn rfl rfl attends.connected)⟩
      | false =>
          simp only [Handler.step, HandlerEvent.suits, act, Server.submit, ingesting, if_true,
            Bool.false_eq_true, if_false] at stepped
          cases stepped
          exact ⟨rfl, .inl rfl⟩
  | _ => cases stepped

private theorem step_writing {output : Output}
    (attends : Attends server session number (.writing output) due) {event : HandlerEvent}
    (stepped : Handler.step server ⟨session, .lines, .writing output⟩ event =
      some (after, later, outputs)) :
    (later = .leaving ∧ outputs = []) ∨
      ∃ left, Attends after session number later left ∧ outputs.map Prod.snd ++ left = due := by
  obtain ⟨_, output_taken, rfl⟩ := attends.due_eq
  cases output_taken
  cases event with
  | wrote =>
      cases stepped
      exact .inr ⟨_, ⟨attends.sound, attends.connected, [], rfl, rfl⟩, rfl⟩
  | notWritten =>
      cases stepped
      exact .inl ⟨rfl, rfl⟩
  | _ => cases stepped

/-- The handler leaves its session, or it still attends to it. Then what was due has been written or
is still due. -/
theorem step (attends : Attends server session number phase due) {event : HandlerEvent}
    (stepped : Handler.step server ⟨session, .lines, phase⟩ event = some (after, later, outputs)) :
    (later = .leaving ∧ outputs = []) ∨
      ∃ left, Attends after session number later left ∧ outputs.map Prod.snd ++ left = due := by
  have silent : outputs = [] ∧ (later = .leaving ∨ Attends after session number later due) →
      (later = .leaving ∧ outputs = []) ∨
        ∃ left, Attends after session number later left ∧ outputs.map Prod.snd ++ left = due := by
    rintro ⟨rfl, leaves | still⟩
    · exact .inl ⟨leaves, rfl⟩
    · exact .inr ⟨due, still, rfl⟩
  cases phase with
  | serving => exact silent (attends.step_serving stepped)
  | submitting text => exact silent (attends.step_submitting stepped)
  | writing output => exact attends.step_writing stepped
  | _ =>
      obtain ⟨taken, taken_eq, -⟩ := attends.due_eq
      cases taken_eq

end Attends

/-- The handler that leaves its session only closes it, and then does nothing any more. -/
private theorem step_of_gone {server after : Server} {session : String} {carrier : Carrier}
    {phase later : HandlerPhase} {event : HandlerEvent} {outputs : Outputs}
    (gone : phase = .leaving ∨ phase = .finished)
    (stepped : step server ⟨session, carrier, phase⟩ event = some (after, later, outputs)) :
    later = .finished ∧ outputs = [] := by
  rw [step] at stepped
  split at stepped
  case isFalse => cases stepped
  rcases gone with rfl | rfl
  · cases event <;> cases stepped
    exact ⟨rfl, rfl⟩
  · cases stepped

end Handler

/-! ### Clients of lines -/

/-- A client of lines with the server: what its handler does, the payloads that were delivered to
its session, and what has been written to it, each in order. -/
structure LineClient where
  server : Server
  phase : HandlerPhase
  delivered : List Json
  written : List Output

namespace LineClient

variable {server : Server} {session : String} {number : Nat} {client later : LineClient}

/-- A client whose connection is accepted. -/
def connect (server : Server) (session : String) : LineClient :=
  ⟨server.connectLines session, .serving, [], []⟩

/-- What is to be written to the client: a line for each payload. -/
def lines (client : LineClient) : List Output :=
  client.delivered.map fun payload => .ofLine payload.compact

/-- All that the client reads, as one text. -/
def stream (client : LineClient) : String :=
  String.join (client.written.map Output.carried)

/-- A step of the handler of the client's session. -/
def handle (client : LineClient) (session : String) (event : HandlerEvent) : Option LineClient :=
  (Handler.step client.server ⟨session, .lines, client.phase⟩ event).map
    fun (server, phase, outputs) =>
      { client with server, phase, written := client.written ++ outputs.map Prod.snd }

/-- The client when something has happened to the sessions, and to nothing else. -/
def perform (client : LineClient) (number : Nat) (event : SessionEvent) : LineClient :=
  let sessions := client.server.hub.sessions
  { client with
    server := { client.server with
      hub := { client.server.hub with sessions := sessions.perform event } }
    delivered := client.delivered ++ sessions.deliveredBy number event }

/-- What happens to a client of lines. Of the client's connection and the receiver of its session
nothing is changed but by its handler. -/
inductive Step (session : String) (number : Nat) : LineClient → LineClient → Prop where
  | handles {client later : LineClient} (event : HandlerEvent)
      (stepped : client.handle session event = some later) : Step session number client later
  | performs {client : LineClient} (event : SessionEvent) (spares : event.Spares number) :
      Step session number client (client.perform number event)
  /-- What is neither sessions nor the client's connection changes. -/
  | changes {client : LineClient} (server : Server)
      (same_sessions : server.hub.sessions = client.server.hub.sessions)
      (same_connection : server.connection? session = client.server.connection? session) :
      Step session number client { client with server }

/-- What can become of a client that connects to a server. -/
inductive Reachable (server : Server) (session : String) : LineClient → Prop where
  | connect : Reachable server session (connect server session)
  | step {client later : LineClient} (reachable : Reachable server session client)
      (stepped : Step session server.hub.sessions.mailboxes.length client later) :
      Reachable server session later

/-- What was delivered has been written or is due. When the handler has left the session, there may
be more that was delivered. -/
inductive Kept (session : String) (number : Nat) (client : LineClient) : Prop where
  | attends {due : List Output}
      (attends : Handler.Attends client.server session number client.phase due)
      (conserved : client.written ++ due = client.lines)
  | gone (gone : client.phase = .leaving ∨ client.phase = .finished)
      (begins : client.written <+: client.lines)

theorem kept_connect (sound : server.hub.sessions.Sound) (new : session ∉ server.clients) :
    (connect server session).Kept session server.hub.sessions.mailboxes.length :=
  .attends (.connectLines sound new) rfl

theorem Kept.handle (kept : client.Kept session number) {event : HandlerEvent}
    (stepped : client.handle session event = some later) : later.Kept session number := by
  obtain ⟨⟨server, phase, outputs⟩, handler_stepped, rfl⟩ := Option.map_eq_some_iff.1 stepped
  cases kept with
  | @attends due attends conserved =>
      rcases attends.step handler_stepped with ⟨leaves, rfl⟩ | ⟨left, attends, due_eq⟩
      · refine .gone (.inl leaves) ⟨due, ?_⟩
        change client.written ++ [] ++ due = client.lines
        rwa [List.append_nil]
      · refine .attends attends ?_
        change client.written ++ outputs.map Prod.snd ++ left = client.lines
        rwa [List.append_assoc, due_eq]
  | gone gone begins =>
      obtain ⟨finished, rfl⟩ := Handler.step_of_gone gone handler_stepped
      refine .gone (.inr finished) ?_
      change client.written ++ [] <+: client.lines
      rwa [List.append_nil]

private theorem lines_perform (client : LineClient) (number : Nat) (event : SessionEvent) :
    (client.perform number event).lines = client.lines ++
      (client.server.hub.sessions.deliveredBy number event).map
        fun payload => .ofLine payload.compact :=
  List.map_append

theorem Kept.perform (kept : client.Kept session number) {event : SessionEvent}
    (spares : event.Spares number) : (client.perform number event).Kept session number := by
  cases kept with
  | attends attends conserved =>
      refine .attends (attends.perform spares) ?_
      rw [lines_perform, ← conserved, List.append_assoc]
      rfl
  | gone gone begins =>
      refine .gone gone ?_
      rw [lines_perform]
      exact begins.trans (List.prefix_append _ _)

theorem Kept.step (kept : client.Kept session number) (stepped : Step session number client later) :
    later.Kept session number := by
  cases stepped with
  | handles event stepped => exact kept.handle stepped
  | performs event spares => exact kept.perform spares
  | changes server same_sessions same_connection =>
      cases kept with
      | attends attends conserved =>
          have connected := same_connection ▸ attends.connected
          exact .attends (attends.goesOn rfl same_sessions connected) conserved
      | gone gone begins => exact .gone gone begins

theorem Reachable.kept (reachable : Reachable server session client)
    (sound : server.hub.sessions.Sound) (new : session ∉ server.clients) :
    client.Kept session server.hub.sessions.mailboxes.length := by
  induction reachable with
  | connect => exact kept_connect sound new
  | step _ stepped induction_step => exact induction_step.step stepped

/-! ### What a client reads -/

/-- The client has read the texts of the first payloads, one a line. As long as its handler attends
to the session the other payloads are due, in order. -/
structure Reads (client : LineClient) (number count : Nat) : Prop where
  written_eq : client.written =
    (client.delivered.take count).map fun payload => .ofLine payload.compact
  lines_eq : Text.lines client.stream = (client.delivered.take count).map Json.compact
  due_eq : ∀ taken, client.phase.taken? = some taken →
    taken ++ (client.server.hub.sessions.waitingAt number).map .ofLine =
      (client.delivered.drop count).map fun payload => .ofLine payload.compact

private theorem stream_of_written {payloads : List Json}
    (written : client.written = payloads.map fun payload => .ofLine payload.compact) :
    client.stream = framed (payloads.map Json.compact) := by
  rw [stream, written, framed, List.map_map, List.map_map]
  rfl

theorem Kept.reads (kept : client.Kept session number) :
    client.Reads number client.written.length := by
  have begins : client.written <+: client.lines := by
    cases kept with
    | attends _ conserved => exact ⟨_, conserved⟩
    | gone _ begins => exact begins
  have written : client.written = (client.delivered.take client.written.length).map
      fun payload => .ofLine payload.compact := by
    rw [List.map_take]
    exact List.prefix_iff_eq_take.1 begins
  refine ⟨written, ?_, fun taken taken_eq => ?_⟩
  · rw [stream_of_written written]
    exact (Json.framing_compact _).lines_eq
  · cases kept with
    | attends attends conserved =>
        obtain ⟨same, same_eq, rfl⟩ := attends.due_eq
        cases taken_eq.symm.trans same_eq
        rw [List.map_drop]
        change _ = client.lines.drop client.written.length
        rw [← conserved, List.drop_left]
    | gone gone _ =>
        rcases gone with leaving | finished
        · rw [leaving] at taken_eq
          cases taken_eq
        · rw [finished] at taken_eq
          cases taken_eq

/-- Lines keep apart what is delivered to a session, whatever it holds. A client of lines reads the
texts of the payloads that were delivered to its session, in order: nothing is left out, and no line
is empty, split or joined to another. -/
theorem reads_delivered (sound : server.hub.sessions.Sound) (new : session ∉ server.clients)
    (reachable : Reachable server session client) :
    (∀ payloads : List Json, Framing (payloads.map Json.compact)) ∧
      ∃ count, client.Reads server.hub.sessions.mailboxes.length count :=
  ⟨Json.framing_compact, _, (reachable.kept sound new).reads⟩

/-- A payload with ends of lines, quotes and control characters in a key and in its text. -/
def ragged : Json :=
  .object [("first\r\n", .string "one\ntwo\r\n\"three\"\t"), ("", .string "\u2028é\\")]

/-- The client of a new server. The first payload that is delivered has been written to it, and the
second one waits. -/
def raggedRun : Option LineClient :=
  let connected := connect (.start (.fresh .standard)) "mast"
  let taken := (connected.perform 0 (.deliver "mast" ragged)).handle "mast" .take
  let written := taken.bind fun client => client.handle "mast" .wrote
  written.map fun client => client.perform 0 (.deliver "mast" ragged)

theorem raggedRun_possible : raggedRun.isSome = true := by
  decide +kernel

def raggedClient : LineClient := raggedRun.get raggedRun_possible

private theorem raggedClient_reachable :
    Reachable (.start (.fresh .standard)) "mast" raggedClient := by
  have run : raggedRun = some raggedClient := (Option.some_get raggedRun_possible).symm
  rw [raggedRun] at run
  obtain ⟨written, written_eq, same⟩ := Option.map_eq_some_iff.1 run
  obtain ⟨taken, taken_eq, wrote⟩ := Option.bind_eq_some_iff.1 written_eq
  rw [← same]
  have delivered : Reachable (.start (.fresh .standard)) "mast"
      ((connect (.start (.fresh .standard)) "mast").perform 0 (.deliver "mast" ragged)) :=
    .step .connect (.performs _ trivial)
  exact ((delivered.step (.handles .take taken_eq)).step (.handles .wrote wrote)).step
    (.performs _ trivial)

/-- After two payloads with ends of lines inside, one of which has been written, the client reads
the first and the second is due. -/
theorem raggedClient_reads :
    (Server.start (.fresh .standard)).hub.sessions.Sound ∧
      "mast" ∉ (Server.start (.fresh .standard)).clients ∧
      raggedClient.delivered.length = 2 ∧ raggedClient.written.length = 1 ∧
      ∃ count, raggedClient.Reads 0 count := by
  have sound : (Server.start (.fresh .standard)).hub.sessions.Sound := .ofCapacity _
  have new : "mast" ∉ (Server.start (.fresh .standard)).clients := List.not_mem_nil
  have reads := reads_delivered sound new raggedClient_reachable
  exact ⟨sound, new, by decide +kernel, by decide +kernel, reads.2⟩

end LineClient

end VesselHub
