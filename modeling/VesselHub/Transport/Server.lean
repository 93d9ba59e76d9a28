/-
Module: VesselHub.Transport.Server
Purpose: A hub with its connections: each one is a session, what it sends goes to the inbox, and
  what waits for its session is written to it.
Main exports: Server, Server.connectLines, Server.connectWebSocket, Server.receive, Server.work,
  Server.flush, Server.settle, Server.advance
-/
import VesselHub.Hub.Process
import VesselHub.Text.Blank
import VesselHub.Transport.Lines

namespace VesselHub

/-- How a connection carries messages. -/
inductive Channel where
  /-- One message per line in both directions. -/
  | lines (buffer : LineBuffer)
  | webSocket
deriving DecidableEq, Repr

/-- An open connection. -/
structure Connection where
  /-- The session that the connection is. -/
  session : String
  registration : Nat
  channel : Channel
deriving DecidableEq, Repr

/-- A frame from a client. -/
inductive Frame where
  | text (text : String)
  | binary
  | ping (payload : List UInt8)
  | pong (payload : List UInt8)
deriving DecidableEq, Repr

/-- What comes from a client. -/
inductive Input where
  | bytes (bytes : List UInt8)
  | frame (frame : Frame)
  /-- The client is gone. -/
  | ended
  /-- Reading from the client or writing to it failed. -/
  | failed
deriving DecidableEq, Repr

/-- What is written to a client. -/
inductive Output where
  /-- A line with its terminator. -/
  | line (text : String)
  | text (text : String)
  | pong (payload : List UInt8)
deriving DecidableEq, Repr

/-- What was written, and to which session's client. -/
abbrev Outputs := List (String × Output)

/-- The hub, its connections, and the inbox of its ingestion worker. -/
structure Server where
  hub : Hub
  /-- Whether the worker runs. -/
  isIngesting : Bool
  /-- The messages that were submitted and not dealt with yet, the oldest first. -/
  inbox : List InboundText
  connections : List Connection

namespace Connection

/-- The form in which a text is written to a client. -/
def output (connection : Connection) (text : String) : Output :=
  match connection.channel with
  | .lines _ => .line (frameLine text)
  | .webSocket => .text text

/-- Whether the client has sent a part of a line. -/
def isMidLine (connection : Connection) : Bool :=
  match connection.channel with
  | .lines buffer => !buffer.isEmpty
  | .webSocket => false

end Connection

namespace Server

/-- A hub with a worker and no connections. -/
def start (hub : Hub) : Server where
  hub := hub
  isIngesting := true
  inbox := []
  connections := []

def connection? (server : Server) (session : String) : Option Connection :=
  server.connections.find? fun connection => connection.session == session

/-- The sessions whose connections are open. -/
def clients (server : Server) : List String :=
  server.connections.map Connection.session

/-! ### Connecting -/

/-- A new connection that carries messages in lines. It has no subscriptions. -/
def connectLines (server : Server) (session : String) : Server :=
  let opened := server.hub.openSession session
  { server with
    hub := opened.state
    connections := server.connections ++ [⟨session, opened.answer, .lines .empty⟩] }

/-- Registers what a new consumer is subscribed to. -/
def subscribeInitially (hub : Hub) (session : String) (mode : InitialMode) : Hub :=
  match mode.request with
  | none => hub
  | some request => (hub.subscribe session request).state

/-- The query of an address, which ends where a fragment starts. -/
def withoutFragment (query : String) : String :=
  match Text.splitOnce '#' query with
  | some (before, _) => before
  | none => query

/-- A new WebSocket connection: it is greeted, and subscribed to what its query asks for. -/
def connectWebSocket (server : Server) (session : String) (query : Option String)
    (timestamp : String) : Server × Hello :=
  let opened := server.hub.openSession session
  let hub := subscribeInitially opened.state session (.ofQuery (query.map withoutFragment))
  ({ server with
    hub
    connections := server.connections ++ [⟨session, opened.answer, .webSocket⟩] },
    server.hub.hello timestamp)

/-! ### Disconnecting -/

/-- Closes the connection of a session, and with it the session. -/
def finish (server : Server) (session : String) : Server :=
  match server.connection? session with
  | none => server
  | some connection =>
      let hub := (server.hub.closeSession session).state
      { server with
        hub := { hub with sessions := hub.sessions.abandon connection.registration }
        connections := server.connections.filter fun other => other.session != session }

/-! ### Reading -/

/-- Submits a message, if the worker still runs. -/
def submit (server : Server) (inbound : InboundText) : Server × Except HubError Unit :=
  if server.isIngesting then
    ({ server with inbox := server.inbox ++ [inbound] }, .ok ())
  else (server, .error .ingestClosed)

/-- Submits a text for a session, whose connection is closed if nobody takes it. -/
def submitFor (server : Server) (session text : String) : Server :=
  let (submitted, result) := server.submit ⟨some session, text⟩
  match result with
  | .ok () => submitted
  | .error _ => submitted.finish session

/-- Submits lines. White space around a line does not belong to its message, and lines without a
message are skipped. -/
def submitLines (session : String) : List String → Server → Server
  | [], server => server
  | line :: lines, server =>
      let message := Text.trim line
      let server := if message = "" then server else server.submitFor session message
      submitLines session lines server

/-- Changes the channel of a session's connection. -/
def setChannel (server : Server) (session : String) (channel : Channel) : Server :=
  { server with connections := server.connections.map fun connection =>
      if connection.session == session then { connection with channel } else connection }

/-- Reads bytes from a connection that carries lines. After a flaw it is closed. -/
def receiveBytes (server : Server) (session : String) (buffer : LineBuffer)
    (bytes : List UInt8) : Server :=
  let (lines, rest) := buffer.read bytes
  let server := submitLines session lines server
  match rest with
  | .ok buffer => server.setChannel session (.lines buffer)
  | .error _ => server.finish session

/-- How many bytes a ping or a pong may carry. -/
def maxControlPayload : Nat := 125

/-- Reads a frame from a WebSocket connection. Binary frames are ignored, and a ping or pong that
carries too much closes the connection. -/
def receiveFrame (server : Server) (session : String) : Frame → Server × Outputs
  | .text text => (server.submitFor session text, [])
  | .binary => (server, [])
  | .ping payload =>
      if payload.length ≤ maxControlPayload then (server, [(session, .pong payload)])
      else (server.finish session, [])
  | .pong payload =>
      (if payload.length ≤ maxControlPayload then server else server.finish session, [])

/-- What is submitted when a client is gone: the last line, if it did not end. -/
def lastLine (connection : Connection) : List String :=
  match connection.channel with
  | .lines buffer => buffer.rest?.toList
  | .webSocket => []

/-- Deals with what comes from the client of a session. -/
def receive (server : Server) (session : String) (input : Input) : Server × Outputs :=
  match server.connection? session with
  | none => (server, [])
  | some connection =>
      match input, connection.channel with
      | .bytes bytes, .lines buffer => (server.receiveBytes session buffer bytes, [])
      | .frame frame, .webSocket => server.receiveFrame session frame
      | .ended, _ => ((submitLines session (lastLine connection) server).finish session, [])
      | _, _ => (server.finish session, [])

/-! ### Working and writing -/

/-- The worker deals with the oldest message. -/
def work (server : Server) (now : Instant) : Server :=
  match server.inbox with
  | [] => server
  | inbound :: inbox => { server with hub := (server.hub.ingest now inbound).state, inbox }

/-- Stops the worker; what waits for it is lost. -/
def stopIngest (server : Server) : Server :=
  { server with isIngesting := false, inbox := [] }

/-- Writes what waits for the session of a connection. A connection whose session is no longer
registered is closed. -/
def flushConnection (server : Server) (connection : Connection) : Server × Outputs :=
  let (sessions, received) := server.hub.sessions.receive connection.registration none
  let server := { server with hub := { server.hub with sessions } }
  let outputs := received.texts.map fun text => (connection.session, connection.output text)
  (if received.isEnded then server.finish connection.session else server, outputs)

/-- Writes what waits for some connections. -/
def flushEach : List Connection → Server → Server × Outputs
  | [], server => (server, [])
  | connection :: connections, server =>
      let (server, outputs) := server.flushConnection connection
      let (server, others) := flushEach connections server
      (server, outputs ++ others)

/-- Writes what waits for the open connections. -/
def flush (server : Server) : Server × Outputs :=
  flushEach server.connections server

/-- The worker deals with a number of messages. -/
def workTurn (now : Instant) : Nat → Server → Server
  | 0, server => server
  | count + 1, server => workTurn now count (server.work now)

/-- How many messages the worker deals with before the connections get their turn to write. -/
def turnLength : Nat := 64

/-- Lets the worker and the connections take turns until the inbox is empty. -/
def takeTurns (now : Instant) : Nat → Server → Server × Outputs
  | 0, server => server.flush
  | turns + 1, server =>
      if server.inbox.isEmpty then server.flush
      else
        let (server, outputs) := (workTurn now turnLength server).flush
        let (server, others) := takeTurns now turns server
        (server, outputs ++ others)

/-- Deals with every message that waits, and writes everything that waits. -/
def settle (server : Server) (now : Instant) : Server × Outputs :=
  takeTurns now server.inbox.length server

/-- Forgets the session of a connection and tells whether it was there. -/
def unregister (server : Server) (session : String) : Server × Bool :=
  let done := server.hub.sessions.unregister session
  ({ server with hub := { server.hub with sessions := done.state } }, done.answer)

/-- How many runs there are before the connections get their turn to write. -/
def runsPerTurn : Nat := 128

/-- Lets the jobs and the connections take turns: some runs, then what waits is written. -/
def runInTurns : Nat → List (Nat × Nat) → Server → Server × Outputs
  | 0, _, server => (server, [])
  | turns + 1, calls, server =>
      let hub := (server.hub.runCalls (calls.take runsPerTurn)).state
      let (server, outputs) := { server with hub }.flush
      let (server, others) := runInTurns turns (calls.drop runsPerTurn) server
      (server, outputs ++ others)

/-- Lets time pass, in milliseconds, and tells how many runs the jobs had. -/
def advance (server : Server) (elapsed : Nat) : Server × Nat × Outputs :=
  let last := server.hub.router.clock + elapsed
  let calls := server.hub.router.calls last
  let (server, outputs) := runInTurns (calls.length / runsPerTurn + 1) calls server
  let hub := { server.hub with router := server.hub.router.setClock last }
  ({ server with hub }, calls.length, outputs)

end Server

end VesselHub
