/-
Module: VesselHub.Transport.Handler
Purpose: The handlers of connections, step by step. Each one greets its client, waits for the client
  and for what is queued for its session, and closes the session on every way out.
Main exports: Carrier, HandlerPhase, Handler, HandlerEvent, Handler.step
-/
import VesselHub.Transport.Server

namespace VesselHub

/-- What carries the messages of a client. -/
inductive Carrier where
  | lines
  | webSocket
deriving DecidableEq, Repr

/-- The message in a text that has arrived. White space around a line does not belong to its
message, and a blank line has none. -/
def Carrier.message? (carrier : Carrier) (text : String) : Option String :=
  match carrier with
  | .webSocket => some text
  | .lines =>
      let message := Text.trim text
      if message = "" then none else some message

/-- Where a handler is. -/
inductive HandlerPhase where
  /-- The greeting is being written. There is no session yet. -/
  | greeting (mode : InitialMode)
  /-- The session is open, and what it starts with is to be subscribed to. -/
  | subscribing (mode : InitialMode)
  /-- The handler waits for its client and for its session. -/
  | serving
  /-- A message waits for room in the inbox. -/
  | submitting (text : String)
  | writing (output : Output)
  /-- Nothing is read or written any more; the session is to be closed. -/
  | leaving
  | finished
deriving DecidableEq, Repr

/-- Whether the session of a handler is open. -/
def HandlerPhase.hasSession : HandlerPhase → Bool
  | .greeting _ => false
  | .finished => false
  | _ => true

/-- The handler of a connection. -/
structure Handler where
  /-- The session that the connection is, or is going to be. -/
  session : String
  carrier : Carrier
  phase : HandlerPhase
deriving DecidableEq, Repr

/-- What happens to a handler. -/
inductive HandlerEvent where
  /-- What was to be written is written. -/
  | wrote
  | notWritten
  /-- What the session starts with is subscribed to. -/
  | subscribe
  /-- A text frame or a line has arrived. -/
  | text (text : String)
  /-- The beginning of a line has arrived. -/
  | buffered (buffer : LineBuffer)
  | binary
  | ping (payload : List UInt8)
  /-- A frame that means nothing to the handler. -/
  | otherFrame
  | closeFrame
  | readError
  /-- Nothing more will arrive. -/
  | ended
  /-- The inbox takes the message, or there is no inbox any more. -/
  | submit
  /-- The handler looks at what is queued for its session. -/
  | take
  /-- The session is closed. -/
  | close
deriving DecidableEq, Repr

/-- Whether a client that is connected in this way can cause an event. -/
def HandlerEvent.suits (event : HandlerEvent) (carrier : Carrier) : Bool :=
  match carrier, event with
  | .webSocket, .buffered _ => false
  | .lines, .binary => false
  | .lines, .ping _ => false
  | .lines, .otherFrame => false
  | .lines, .closeFrame => false
  | _, _ => true

/-- A new connection, whose session is registered. -/
def Server.openConnection (server : Server) (session : String) (channel : Channel) : Server :=
  let opened := server.hub.openSession session
  { server with
    hub := opened.state
    connections := server.connections ++ [⟨session, opened.answer, channel⟩] }

namespace Handler

/-- Takes one text that is queued for the session. If there is none the handler goes on waiting,
unless the session is not registered any more. -/
def take (server : Server) (handler : Handler) : Option (Server × HandlerPhase) :=
  match server.connection? handler.session with
  | none => none
  | some connection =>
      let (sessions, received) := server.hub.sessions.receive connection.registration (some 1)
      let server := { server with hub := { server.hub with sessions } }
      match received.texts with
      | text :: _ => some (server, .writing (connection.output text))
      | [] => if received.isEnded then some (server, .leaving) else none

/-- What an event does that the phase of the handler allows: to the server, to the phase, and what
has been written then. -/
def act (server : Server) (handler : Handler) (event : HandlerEvent) :
    Option (Server × HandlerPhase × Outputs) :=
  match handler.phase, event with
  | .greeting mode, .wrote =>
      some (server.openConnection handler.session .webSocket, .subscribing mode, [])
  | .greeting _, .notWritten => some (server, .finished, [])
  | .subscribing mode, .subscribe =>
      let hub := Server.subscribeInitially server.hub handler.session mode
      some ({ server with hub }, .serving, [])
  | .serving, .text text =>
      match handler.carrier.message? text with
      | some message => some (server, .submitting message, [])
      | none => some (server, .serving, [])
  | .serving, .buffered buffer =>
      some (server.setChannel handler.session (.lines buffer), .serving, [])
  | .serving, .binary => some (server, .serving, [])
  | .serving, .ping payload => some (server, .writing (.pong payload), [])
  | .serving, .otherFrame => some (server, .serving, [])
  | .serving, .closeFrame => some (server, .leaving, [])
  | .serving, .readError => some (server, .leaving, [])
  | .serving, .ended => some (server, .leaving, [])
  | .serving, .take =>
      (take server handler).map fun taken => (taken.1, taken.2, [])
  | .submitting text, .submit =>
      let (submitted, result) := server.submit ⟨some handler.session, text⟩
      match result with
      | .ok () => some (submitted, .serving, [])
      | .error _ => some (submitted, .leaving, [])
  | .writing output, .wrote => some (server, .serving, [(handler.session, output)])
  | .writing _, .notWritten => some (server, .leaving, [])
  | .leaving, .close => some (server.finish handler.session, .finished, [])
  | _, _ => none

/-- One step of a handler. Nothing stands for an event that is not possible now. -/
def step (server : Server) (handler : Handler) (event : HandlerEvent) :
    Option (Server × HandlerPhase × Outputs) :=
  if event.suits handler.carrier then act server handler event else none

end Handler

end VesselHub
