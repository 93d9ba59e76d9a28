/-
Module: VesselHub.Proofs.Transport.Server
Purpose: What a server does for a connection at once is what the connection's handler does step by
  step: connecting, reading what has arrived, and writing all that waits.
Main exports: Handler.Reaches, Handler.reaches_connectWebSocket, Handler.reaches_receive,
  Handler.reaches_flushConnection, ServerWorld.steps_of_reaches
-/
import VesselHub.Proofs.Transport.World

namespace VesselHub

def Channel.carrier : Channel → Carrier
  | .lines _ => .lines
  | .webSocket => .webSocket

/-! ### Sessions without a connection -/

namespace Server

variable {server : Server} {session : String}

theorem mem_clients_of_connection? {connection : Connection}
    (found : server.connection? session = some connection) : session ∈ server.clients := by
  by_contra absent
  rw [connection?_eq_none_iff.2 absent] at found
  cases found

theorem finish_of_not_mem (absent : session ∉ server.clients) : server.finish session = server := by
  rw [finish, connection?_eq_none_iff.2 absent]

theorem not_mem_clients_finish (server : Server) (session : String) :
    session ∉ (server.finish session).clients := by
  rw [clients_finish]
  exact fun present => bne_iff_ne.1 (List.mem_filter.1 present).2 rfl

private theorem setChannel_of_not_mem (absent : session ∉ server.clients) (channel : Channel) :
    server.setChannel session channel = server := by
  have same : (server.connections.map fun connection =>
      if connection.session == session then { connection with channel } else connection) =
        server.connections := by
    refine (List.map_congr_left fun connection member => ?_).trans (List.map_id _)
    refine if_neg fun equal => absent ?_
    exact beq_iff_eq.1 equal ▸ List.mem_map_of_mem member
  rw [setChannel, same]

theorem submitFor_of_ingesting (ingesting : server.isIngesting = true) (text : String) :
    server.submitFor session text =
      { server with inbox := server.inbox ++ [⟨some session, text⟩] } := by
  simp only [submitFor, submit, ingesting, if_true]

theorem mem_clients_submitFor (ingesting : server.isIngesting = true)
    (present : session ∈ server.clients) (text : String) :
    session ∈ (server.submitFor session text).clients := by
  rw [submitFor_of_ingesting ingesting]
  exact present

theorem submitFor_of_not_ingesting (closed : server.isIngesting = false) (text : String) :
    server.submitFor session text = server.finish session := by
  simp only [submitFor, submit, closed, Bool.false_eq_true, if_false]

private theorem isIngesting_finish (server : Server) (session : String) :
    (server.finish session).isIngesting = server.isIngesting := by
  rw [finish]
  split <;> rfl

/-- Without a worker, nobody takes the lines of a connection that is closed. -/
private theorem submitLines_of_not_mem (closed : server.isIngesting = false)
    (absent : session ∉ server.clients) (lines : List String) :
    submitLines session lines server = server := by
  induction lines with
  | nil => rfl
  | cons line lines induction_step =>
      rw [submitLines, submitFor_of_not_ingesting closed, finish_of_not_mem absent, ite_self,
        induction_step]

end Server

namespace Handler

/-- The steps that the handler of a session takes with nothing in between, and what they write. -/
inductive Reaches (session : String) (carrier : Carrier) :
    Server → HandlerPhase → Server → HandlerPhase → Outputs → Prop where
  | refl (server : Server) (phase : HandlerPhase) :
      Reaches session carrier server phase server phase []
  | next {server between after : Server} {phase later last : HandlerPhase}
      {outputs others : Outputs} (event : HandlerEvent)
      (stepped : step server ⟨session, carrier, phase⟩ event = some (between, later, outputs))
      (reached : Reaches session carrier between later after last others) :
      Reaches session carrier server phase after last (outputs ++ others)

namespace Reaches

variable {session : String} {carrier : Carrier} {server between after : Server}
  {phase later last : HandlerPhase} {outputs others : Outputs}

theorem trans (first : Reaches session carrier server phase between later outputs)
    (second : Reaches session carrier between later after last others) :
    Reaches session carrier server phase after last (outputs ++ others) := by
  induction first with
  | refl => exact second
  | next event stepped _ induction_step =>
      rw [List.append_assoc]
      exact .next event stepped (induction_step second)

/-- A step that writes nothing. -/
theorem next_silent (event : HandlerEvent)
    (stepped : step server ⟨session, carrier, phase⟩ event = some (between, later, []))
    (reached : Reaches session carrier between later after last others) :
    Reaches session carrier server phase after last others :=
  .next event stepped reached

theorem next_last (event : HandlerEvent)
    (stepped : step server ⟨session, carrier, phase⟩ event = some (after, last, outputs)) :
    Reaches session carrier server phase after last outputs :=
  List.append_nil outputs ▸ .next event stepped (.refl after last)

theorem wrote (output : Output)
    (reached : Reaches session carrier server .serving after last others) :
    Reaches session carrier server (.writing output) after last ((session, output) :: others) :=
  have written : step server ⟨session, carrier, .writing output⟩ .wrote =
      some (server, .serving, [(session, output)]) := by cases carrier <;> rfl
  .next .wrote written reached

/-- Every way out closes the session. -/
theorem finish (event : HandlerEvent)
    (leaves : step server ⟨session, carrier, phase⟩ event = some (after, .leaving, [])) :
    Reaches session carrier server phase (after.finish session) .finished [] :=
  .next_silent event leaves (.next_last .close (by cases carrier <;> rfl))

end Reaches

/-! ### Connecting -/

/-- Where the handler of a session is when it waits, or does nothing any more. -/
def settled (server : Server) (session : String) : HandlerPhase :=
  if session ∈ server.clients then .serving else .finished

/-- A client is greeted, and then its session starts with what its query asks for. -/
theorem reaches_connectWebSocket (server : Server) (session : String) (query : Option String)
    (timestamp : String) :
    Reaches session .webSocket server
      (.greeting (.ofQuery (query.map Server.withoutFragment)))
      (server.connectWebSocket session query timestamp).1 .serving [] :=
  .next_silent .wrote rfl (.next_last .subscribe rfl)

/-! ### Reading -/

section Reading

variable {server : Server} {session : String} {carrier : Carrier}

theorem settled_of_mem (present : session ∈ server.clients) : settled server session = .serving :=
  if_pos present

theorem settled_finish (server : Server) (session : String) :
    settled (server.finish session) session = .finished :=
  if_neg (Server.not_mem_clients_finish server session)

/-- A message is taken, or the connection is closed. -/
theorem reaches_submitFor (present : session ∈ server.clients) (message : String) :
    Reaches session carrier server (.submitting message) (server.submitFor session message)
      (settled (server.submitFor session message) session) [] := by
  cases ingesting : server.isIngesting with
  | true =>
      rw [settled_of_mem (Server.mem_clients_submitFor ingesting present message),
        Server.submitFor_of_ingesting ingesting]
      refine .next_last .submit ?_
      cases carrier <;> simp [step, act, HandlerEvent.suits, Server.submit, ingesting]
  | false =>
      rw [Server.submitFor_of_not_ingesting ingesting, settled_finish]
      refine .finish .submit ?_
      cases carrier <;> simp [step, act, HandlerEvent.suits, Server.submit, ingesting]

theorem reaches_text (present : session ∈ server.clients) {text message : String}
    (meant : carrier.message? text = some message) :
    Reaches session carrier server .serving (server.submitFor session message)
      (settled (server.submitFor session message) session) [] := by
  refine .next_silent (.text text) ?_ (reaches_submitFor present message)
  cases carrier <;> simp [step, act, HandlerEvent.suits, meant]

theorem reaches_submitLines (present : session ∈ server.clients) (lines : List String) :
    Reaches session .lines server .serving (Server.submitLines session lines server)
      (settled (Server.submitLines session lines server) session) [] := by
  induction lines generalizing server with
  | nil =>
      rw [Server.submitLines, settled_of_mem present]
      exact .refl _ _
  | cons line lines induction_step =>
      rw [Server.submitLines]
      by_cases blank : Text.trim line = ""
      · rw [if_pos blank]
        refine .next_silent (.text line) ?_ (induction_step present)
        simp [step, act, HandlerEvent.suits, Carrier.message?, blank]
      · rw [if_neg blank]
        have meant : Carrier.lines.message? line = some (Text.trim line) := by
          rw [Carrier.message?, if_neg blank]
        have taken := reaches_text present meant
        cases ingesting : server.isIngesting with
        | true =>
            have still := Server.mem_clients_submitFor ingesting present (Text.trim line)
            rw [settled_of_mem still] at taken
            exact taken.trans (induction_step still)
        | false =>
            rw [Server.submitFor_of_not_ingesting ingesting] at taken ⊢
            rwa [Server.submitLines_of_not_mem
              ((Server.isIngesting_finish server session).trans ingesting)
              (Server.not_mem_clients_finish server session)]

/-- After its lines, a connection that is closed by now stays so. -/
theorem reaches_finish_after_lines (present : session ∈ server.clients) (lines : List String)
    (event : HandlerEvent) (leaves : ∀ server,
      step server ⟨session, .lines, .serving⟩ event = some (server, .leaving, [])) :
    Reaches session .lines server .serving
      ((Server.submitLines session lines server).finish session) .finished [] := by
  have read := reaches_submitLines present lines
  by_cases still : session ∈ (Server.submitLines session lines server).clients
  · rw [settled, if_pos still] at read
    exact read.trans (.finish event (leaves _))
  · rw [settled, if_neg still] at read
    rwa [Server.finish_of_not_mem still]

theorem reaches_receiveBytes (present : session ∈ server.clients) (buffer : LineBuffer)
    (bytes : List UInt8) :
    Reaches session .lines server .serving (server.receiveBytes session buffer bytes)
      (settled (server.receiveBytes session buffer bytes) session) [] := by
  rw [Server.receiveBytes]
  obtain ⟨lines, rest⟩ := buffer.read bytes
  cases rest with
  | error flaw =>
      dsimp only
      rw [settled_finish]
      exact reaches_finish_after_lines present lines .readError fun _ => rfl
  | ok buffer =>
      have read := reaches_submitLines present lines
      dsimp only
      by_cases still : session ∈ (Server.submitLines session lines server).clients
      · rw [settled, if_pos still] at read
        rw [settled, Server.clients_setChannel, if_pos still]
        exact read.trans (.next_last (.buffered buffer) rfl)
      · rwa [Server.setChannel_of_not_mem still]

theorem reaches_receiveFrame (present : session ∈ server.clients) (frame : Frame) :
    Reaches session .webSocket server .serving (server.receiveFrame session frame).1
      (settled (server.receiveFrame session frame).1 session)
      (server.receiveFrame session frame).2 := by
  cases frame with
  | text text => exact reaches_text present rfl
  | binary =>
      rw [Server.receiveFrame, settled_of_mem present]
      exact .next_last .binary rfl
  | ping payload =>
      rw [Server.receiveFrame]
      split
      · rw [settled_of_mem present]
        exact .next_silent (.ping payload) rfl (.next_last .wrote rfl)
      · rw [settled_finish]
        exact .finish .readError rfl
  | pong payload =>
      rw [Server.receiveFrame]
      split
      · rw [settled_of_mem present]
        exact .next_last .otherFrame rfl
      · rw [settled_finish]
        exact .finish .readError rfl

/-- Whatever comes from a client, its handler deals with it step by step. -/
theorem reaches_receive {connection : Connection}
    (found : server.connection? session = some connection) (input : Input) :
    Reaches session connection.channel.carrier server .serving (server.receive session input).1
      (settled (server.receive session input).1 session) (server.receive session input).2 := by
  have present := Server.mem_clients_of_connection? found
  have failing : Reaches session connection.channel.carrier server .serving
      (server.finish session) (settled (server.finish session) session) [] := by
    rw [settled_finish]
    exact .finish .readError (by cases connection.channel <;> rfl)
  rw [Server.receive, found]
  obtain ⟨name, registration, channel⟩ := connection
  cases channel with
  | lines buffer =>
      cases input with
      | bytes bytes => exact reaches_receiveBytes present buffer bytes
      | frame frame => exact failing
      | ended =>
          dsimp only
          rw [settled_finish]
          exact reaches_finish_after_lines present _ .ended fun _ => rfl
      | failed => exact failing
  | webSocket =>
      cases input with
      | bytes bytes => exact failing
      | frame frame => exact reaches_receiveFrame present frame
      | ended =>
          dsimp only [Server.lastLine, Server.submitLines]
          rw [settled_finish]
          exact .finish .ended rfl
      | failed => exact failing

end Reading

/-! ### Writing -/

section Writing

variable {server : Server} {session : String} {carrier : Carrier} {connection : Connection}
  {mailbox : Mailbox}

/-- The server with another queue for a registration. -/
def withMailbox (server : Server) (number : Nat) (mailbox : Mailbox) : Server :=
  { server with hub := { server.hub with sessions := { server.hub.sessions with
      mailboxes := server.hub.sessions.mailboxes.set number mailbox } } }

theorem withMailbox_self {number : Nat}
    (found : server.hub.sessions.mailboxes[number]? = some mailbox) :
    withMailbox server number mailbox = server := by
  obtain ⟨inside, rfl⟩ := List.getElem?_eq_some_iff.1 found
  rw [withMailbox, List.set_getElem_self inside]

private theorem withMailbox_withMailbox (server : Server) (number : Nat) (mailbox other : Mailbox) :
    withMailbox (withMailbox server number mailbox) number other =
      withMailbox server number other := by
  rw [withMailbox, withMailbox, withMailbox]
  dsimp only
  rw [List.set_set]

theorem getElem?_withMailbox {number : Nat}
    (found : server.hub.sessions.mailboxes[number]? = some mailbox) (other : Mailbox) :
    (withMailbox server number other).hub.sessions.mailboxes[number]? = some other :=
  List.getElem?_set_self (List.getElem?_eq_some_iff.1 found).1

/-- The oldest text that waits is written next. -/
private theorem step_take_text {text : String} {rest : List String} {isOpen : Bool}
    (connected : server.connection? session = some connection)
    (found : server.hub.sessions.mailboxes[connection.registration]? =
      some ⟨text :: rest, isOpen⟩) :
    step server ⟨session, carrier, .serving⟩ .take =
      some (withMailbox server connection.registration ⟨rest, isOpen⟩,
        .writing (connection.output text), []) := by
  have taken : take server ⟨session, carrier, .serving⟩ =
      some (withMailbox server connection.registration ⟨rest, isOpen⟩,
        .writing (connection.output text)) := by
    simp [take, connected, Sessions.receive, found, withMailbox]
  cases carrier <;> simp only [step, act, HandlerEvent.suits, taken, if_true, Option.map_some]

/-- The handler of a session that is not registered any more leaves when nothing waits. -/
private theorem step_take_ended {isOpen : Bool}
    (connected : server.connection? session = some connection)
    (found : server.hub.sessions.mailboxes[connection.registration]? = some ⟨[], isOpen⟩)
    (ended : server.hub.sessions.isCurrent connection.registration = false) :
    step server ⟨session, carrier, .serving⟩ .take = some (server, .leaving, []) := by
  have same := withMailbox_self found
  rw [withMailbox] at same
  have taken : take server ⟨session, carrier, .serving⟩ = some (server, .leaving) := by
    simp [take, connected, Sessions.receive, found, ended, same]
  cases carrier <;> simp only [step, act, HandlerEvent.suits, taken, if_true, Option.map_some]

/-- All that waits is written, one text after another. -/
theorem reaches_emptied (connected : server.connection? session = some connection)
    {waiting : List String} {isOpen : Bool}
    (found : server.hub.sessions.mailboxes[connection.registration]? = some ⟨waiting, isOpen⟩) :
    Reaches session carrier server .serving
      (withMailbox server connection.registration ⟨[], isOpen⟩) .serving
      (waiting.map fun text => (session, connection.output text)) := by
  induction waiting generalizing server with
  | nil =>
      rw [withMailbox_self found]
      exact .refl _ _
  | cons text rest induction_step =>
      have emptied : Reaches session carrier
          (withMailbox server connection.registration ⟨rest, isOpen⟩) .serving _ .serving _ :=
        induction_step connected (getElem?_withMailbox found ⟨rest, isOpen⟩)
      rw [withMailbox_withMailbox] at emptied
      exact .next_silent .take (step_take_text connected found) (.wrote _ emptied)

private theorem flushConnection_eq
    (found : server.hub.sessions.mailboxes[connection.registration]? = some mailbox) :
    server.flushConnection connection =
      let emptied := withMailbox server connection.registration { mailbox with waiting := [] }
      (if server.hub.sessions.isCurrent connection.registration then emptied
        else emptied.finish connection.session,
        mailbox.waiting.map fun text => (connection.session, connection.output text)) := by
  have all_taken : mailbox.waiting.take (mailbox.waiting.length + 1) = mailbox.waiting :=
    List.take_of_length_le (Nat.le_succ _)
  have none_left : mailbox.waiting.drop (mailbox.waiting.length + 1) = [] :=
    List.drop_of_length_le (Nat.le_succ _)
  simp only [Server.flushConnection, Sessions.receive, found, Option.getD_none, all_taken,
    none_left, Nat.lt_succ_self, decide_true, Bool.true_and]
  cases server.hub.sessions.isCurrent connection.registration <;> rfl

/-- Writing all that waits for a connection is what its handler does, text by text. -/
theorem reaches_flushConnection (connected : server.connection? session = some connection) :
    Reaches session carrier server .serving (server.flushConnection connection).1
      (settled (server.flushConnection connection).1 session)
      (server.flushConnection connection).2 := by
  have present := Server.mem_clients_of_connection? connected
  have named : connection.session = session := by
    have satisfied := List.find?_some connected
    exact beq_iff_eq.1 satisfied
  cases found : server.hub.sessions.mailboxes[connection.registration]? with
  | none =>
      have idle : server.flushConnection connection = (server, []) := by
        simp only [Server.flushConnection, Sessions.receive, found, List.map_nil,
          Bool.false_eq_true, if_false]
      rw [idle, settled_of_mem present]
      exact .refl _ _
  | some mailbox =>
      obtain ⟨waiting, isOpen⟩ := mailbox
      let emptied := withMailbox server connection.registration ⟨[], isOpen⟩
      have written : Reaches session carrier server .serving emptied .serving
          (waiting.map fun text => (session, connection.output text)) :=
        reaches_emptied connected found
      rw [flushConnection_eq found, named]
      cases current : server.hub.sessions.isCurrent connection.registration with
      | true =>
          have still : settled emptied session = .serving := settled_of_mem present
          simp only [if_true]
          rwa [still]
      | false =>
          have ended : step emptied ⟨session, carrier, .serving⟩ .take =
              some (emptied, .leaving, []) :=
            step_take_ended connected (getElem?_withMailbox found ⟨[], isOpen⟩) current
          simp only [Bool.false_eq_true, if_false]
          rw [settled_finish]
          exact List.append_nil (waiting.map _) ▸ written.trans (.finish .take ended)

end Writing

end Handler

namespace ServerWorld

/-- Steps of a handler are moves of the world, in which the other handlers stay where they are. -/
theorem steps_of_reaches {world : ServerWorld} {position : Nat} {session : String}
    {carrier : Carrier} {server after : Server} {phase last : HandlerPhase} {outputs : Outputs}
    (same : world.server = server)
    (found : world.handlers[position]? = some ⟨session, carrier, phase⟩)
    (reached : Handler.Reaches session carrier server phase after last outputs) :
    ∃ moves, world.steps moves =
      some ⟨after, world.handlers.set position ⟨session, carrier, last⟩⟩ := by
  induction reached generalizing world with
  | refl server phase =>
      refine ⟨[], ?_⟩
      obtain ⟨inside, at_position⟩ := List.getElem?_eq_some_iff.1 found
      rw [steps, ← same, ← at_position, List.set_getElem_self]
  | @next server between after phase later last outputs others event stepped reached
      induction_step =>
      obtain ⟨inside, -⟩ := List.getElem?_eq_some_iff.1 found
      let next : ServerWorld := ⟨between, world.handlers.set position ⟨session, carrier, later⟩⟩
      have moved : world.step (.handle position event) = some next := by
        rw [step, found, same]
        dsimp only
        rw [stepped]
        rfl
      have there : next.handlers[position]? = some ⟨session, carrier, later⟩ :=
        List.getElem?_set_self inside
      have on_from_there : ∃ moves, next.steps moves =
          some ⟨after, next.handlers.set position ⟨session, carrier, last⟩⟩ :=
        induction_step rfl there
      obtain ⟨moves, run⟩ := on_from_there
      refine ⟨.handle position event :: moves, ?_⟩
      rw [steps, moved, Option.bind_some, run, List.set_set]

end ServerWorld

end VesselHub
