/-
Module: VesselHub.Session.Queues
Purpose: The bounded queues of the connected sessions. Handing a text over never waits: a session
  that does not keep up loses the text, and no other session notices.
Main exports: Sessions, Sessions.register, Sessions.send, Sessions.deliver, Sessions.receive
-/
import VesselHub.Entries
import VesselHub.Json.Printer
import VesselHub.Log
import VesselHub.Text.Order

namespace VesselHub

/-- Why a session did not get a text. -/
inductive DeliveryError where
  | unknownSession (session : String)
  /-- As many texts wait as there may. -/
  | notKeepingUp (session : String)
  /-- Nobody is left to receive. -/
  | closed (session : String)
deriving DecidableEq, Repr

/-- The wording of a complaint. -/
def DeliveryError.message : DeliveryError → String
  | .unknownSession session => "unknown session " ++ session
  | .notKeepingUp session => "session " ++ session ++ " is not keeping up, message dropped"
  | .closed session => "session " ++ session ++ " is closed"

/-- The queue of one registration. -/
structure Mailbox where
  /-- The texts that wait to be received, the oldest first. -/
  waiting : List String
  /-- Whether someone is there to receive them. -/
  isOpen : Bool
deriving DecidableEq, Repr

namespace Mailbox

def empty : Mailbox := ⟨[], true⟩

/-- Whether another text may wait. -/
def hasRoom (mailbox : Mailbox) (capacity : Nat) : Bool :=
  mailbox.waiting.length < capacity

def append (mailbox : Mailbox) (text : String) : Mailbox :=
  { mailbox with waiting := mailbox.waiting ++ [text] }

/-- The mailbox whose receiver is gone, and what waited with it. -/
def abandon (_ : Mailbox) : Mailbox := ⟨[], false⟩

end Mailbox

/-- Who a payload is for. -/
inductive Target where
  | session (name : String)
  /-- Every session that is registered. -/
  | everyone
deriving DecidableEq, Repr

/-- The sessions and their queues. Each registration has a mailbox of its own, which outlives the
registration until what waits in it has been received. -/
structure Sessions where
  /-- How many texts may wait for each registration. -/
  capacity : Nat
  /-- The mailboxes by registration, numbered from 0 in the order of registering. -/
  mailboxes : List Mailbox
  /-- The current registration of each session. -/
  current : Entries Nat
deriving Repr

/-- What a receiver gets at once. -/
structure Received where
  texts : List String
  /-- Whether it saw that nothing will ever follow. -/
  isEnded : Bool
deriving DecidableEq, Repr

namespace Sessions

/-- No sessions. At least one text may wait for each. -/
def ofCapacity (capacity : Nat) : Sessions where
  capacity := max capacity 1
  mailboxes := []
  current := []

def contains (sessions : Sessions) (session : String) : Bool :=
  Entries.contains sessions.current session

/-- The registered sessions in increasing order. -/
def names (sessions : Sessions) : List String :=
  Text.sort (Entries.keys sessions.current)

def size (sessions : Sessions) : Nat :=
  sessions.current.length

def isEmpty (sessions : Sessions) : Bool :=
  sessions.current.isEmpty

/-- Registers a session and yields the number of the registration. A previous registration of
the session is no longer current. -/
def register (sessions : Sessions) (session : String) : Step Sessions Nat :=
  let number := sessions.mailboxes.length
  { state := { sessions with
      mailboxes := sessions.mailboxes ++ [.empty]
      current := Entries.insert sessions.current session number }
    answer := number
    log := [.debug ("Session " ++ session ++ " registered")] }

/-- Forgets a session and tells whether it was there. -/
def unregister (sessions : Sessions) (session : String) : Step Sessions Bool :=
  if sessions.contains session then
    { state := { sessions with current := Entries.erase sessions.current session }
      answer := true
      log := [.debug ("Session " ++ session ++ " unregistered")] }
  else { state := sessions, answer := false }

/-- Queues a text for one session. -/
def send (sessions : Sessions) (session text : String) :
    Sessions × Except DeliveryError Unit :=
  match Entries.get? sessions.current session with
  | none => (sessions, .error (.unknownSession session))
  | some number =>
      match sessions.mailboxes[number]? with
      | none => (sessions, .error (.closed session))
      | some mailbox =>
          if !mailbox.isOpen then (sessions, .error (.closed session))
          else if !mailbox.hasRoom sessions.capacity then
            (sessions, .error (.notKeepingUp session))
          else
            ({ sessions with
                mailboxes := sessions.mailboxes.set number (mailbox.append text) }, .ok ())

/-- Queues a text for each of some sessions and collects the complaints. -/
def sendEach (text : String) : List String → Sessions → Sessions × List DeliveryError
  | [], sessions => (sessions, [])
  | session :: rest, sessions =>
      let (sent, result) := sessions.send session text
      let (after, complaints) := sendEach text rest sent
      match result with
      | .ok () => (after, complaints)
      | .error complaint => (after, complaint :: complaints)

/-- Queues a text for every session; those that cannot take it are skipped. -/
def broadcast (sessions : Sessions) (text : String) : Sessions × List DeliveryError :=
  sendEach text (Entries.keys sessions.current) sessions

/-- Hands a payload over. A broadcast always succeeds. -/
def deliver (sessions : Sessions) (payload : Json) :
    Target → Step Sessions (Except DeliveryError Unit)
  | .session name =>
      let (sent, result) := sessions.send name payload.compact
      { state := sent, answer := result }
  | .everyone =>
      let (sent, complaints) := sessions.broadcast payload.compact
      { state := sent
        answer := .ok ()
        log := complaints.map fun complaint =>
          .warn ("Broadcast skipped: " ++ complaint.message) }

/-- Whether more texts may come for a registration. -/
def isCurrent (sessions : Sessions) (number : Nat) : Bool :=
  (Entries.values sessions.current).contains number

/-- Receives what waits for a registration, up to a limit. -/
def receive (sessions : Sessions) (number : Nat) (limit : Option Nat) :
    Sessions × Received :=
  match sessions.mailboxes[number]? with
  | none => (sessions, ⟨[], false⟩)
  | some mailbox =>
      let count := limit.getD (mailbox.waiting.length + 1)
      let left : Mailbox := { mailbox with waiting := mailbox.waiting.drop count }
      ({ sessions with mailboxes := sessions.mailboxes.set number left },
        { texts := mailbox.waiting.take count
          isEnded := mailbox.waiting.length < count && !sessions.isCurrent number })

/-- The receiver of a registration goes away, and with it what waited. -/
def abandon (sessions : Sessions) (number : Nat) : Sessions :=
  { sessions with mailboxes := sessions.mailboxes.modify number Mailbox.abandon }

end Sessions

end VesselHub
