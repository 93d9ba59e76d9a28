/-
Module: VesselHub.Main
Purpose: A hub on the command line. Each line of standard input is an inbound message; what the
  session of the console receives is printed, and the log goes to standard error.
Main exports: main
-/
import Std.Time.DateTime.Timestamp
import VesselHub.Config.Reader
import VesselHub.Hub.Process

namespace VesselHub.Console

/-- The environment variable that names the file with the settings. -/
def configVariable : String := "SIGNALK_HUB_CONFIG"

/-- The file with the settings: the environment names it before the first argument does. -/
def configFile? (environment : Option String) (arguments : List String) : Option String :=
  environment.or arguments.head?

/-- The wording of a complaint about settings. -/
def complaint : Config.TextError → String
  | .flaw _ => "the settings are not JSON"
  | .misfit => "the settings have the wrong shape"
  | .invalid cause => cause.message

/-- The session of the console. -/
def session : String := "console"

/-- The hub for the content of a file with settings, or without one the hub that nobody
configured. -/
def hubFor (content : Option String) : Except String Hub := do
  let config ← match content with
    | some text => (Config.ofText text).mapError complaint
    | none => .ok .standard
  (Hub.ofConfig config).mapError HubError.message

/-- Lets time pass and deals with a line. -/
def answer (hub : Hub) (registration : Nat) (elapsed : Nat) (now : Instant) (line : String) :
    Step Hub (List String) :=
  let advanced := hub.elapse elapsed
  let done := advanced.state.ingest now ⟨some session, line⟩
  let (sessions, received) := done.state.sessions.receive registration none
  { state := { done.state with sessions }
    answer := received.texts
    log := advanced.log ++ done.log }

/-- The name of a level in the log. -/
def levelName : LogLevel → String
  | .debug => "DEBUG"
  | .info => "INFO"
  | .warn => "WARN"
  | .error => "ERROR"

def printLog (log : List LogLine) : IO Unit := do
  for line in log do
    IO.eprintln (levelName line.level ++ " " ++ line.text)

/-- The time of the system's clock. -/
def now : IO Instant := do
  let nanos := (← Std.Time.Timestamp.now).toNanosecondsSinceUnixEpoch.toInt
  return ⟨nanos / Instant.leapNanos, (nanos % Instant.leapNanos).toNat⟩

/-- Answers lines until the input ends. -/
partial def loop (input : IO.FS.Stream) (hub : Hub) (registration last : Nat) : IO Unit := do
  let line ← input.getLine
  if line.isEmpty then return
  let time ← IO.monoMsNow
  let done := answer hub registration (time - last) (← now) line
  printLog done.log
  for text in done.answer do
    IO.println text
  loop input done.state registration time

/-- Opens the session of the console and answers lines. -/
def run (hub : Hub) : IO Unit := do
  let opened := hub.openSession session
  printLog (hub.creationLog ++ opened.log)
  loop (← IO.getStdin) opened.state opened.answer (← IO.monoMsNow)

/-- Reads the file with the settings, if there is one. -/
def readConfig (arguments : List String) : IO (Option String) := do
  match configFile? (← IO.getEnv configVariable) arguments with
  | some file => return some (← IO.FS.readFile file)
  | none => return none

end VesselHub.Console

def main (arguments : List String) : IO UInt32 := do
  match VesselHub.Console.hubFor (← VesselHub.Console.readConfig arguments) with
  | .error message =>
      IO.eprintln message
      return 1
  | .ok hub =>
      VesselHub.Console.run hub
      return 0
