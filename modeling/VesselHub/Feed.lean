/-
Module: VesselHub.Feed
Purpose: A simulated boat: once per second it moves on and submits where it is.
Main exports: Feed, Feed.start, Feed.delta, Feed.tick, Feed.ticks
-/
import VesselHub.Transport.Server

namespace VesselHub

/-- A simulated boat. -/
structure Feed where
  /-- The seconds since the feed was started. -/
  second : Nat
  latitude : Float
  longitude : Float
  /-- Whether the feed still submits. It ends when nobody takes its messages. -/
  isRunning : Bool

namespace Feed

def start : Feed where
  second := 0
  latitude := 52.0987654
  longitude := 4.9876545
  isRunning := true

/-- The boat moves a little to the north and twice as far to the east. -/
def move (feed : Feed) : Feed :=
  { feed with
    latitude := feed.latitude + 0.00001
    longitude := feed.longitude + 0.00002 }

def number (value : Float) : Json :=
  .number (.double (.ofFloat value))

/-- A path with the value there. -/
def entry (path : String) (value : Json) : Json :=
  .object [("path", .string path), ("value", value)]

/-- Where the boat is and how it moves: speed and course swing slowly. -/
def delta (feed : Feed) (now : Instant) : Json :=
  let seconds := Float.ofNat feed.second
  .object [
    ("context", .string "vessels.self"),
    ("updates", .array [.object [
      ("source", .object [("label", .string "demo"), ("type", .string "signalk")]),
      ("timestamp", .string now.text),
      ("values", .array [
        entry "navigation.position" (.object [
          ("latitude", number feed.latitude), ("longitude", number feed.longitude)]),
        entry "navigation.speedOverGround" (number (3.85 + seconds.sin * 0.5)),
        entry "navigation.courseOverGroundTrue" (number (1.52 + seconds.cos * 0.1))])]])]

/-- The boat moves and submits what it has to say; the worker deals with it. -/
def tick (feed : Feed) (server : Server) (now : Instant) : Feed × Server :=
  if !feed.isRunning then (feed, server)
  else
    let feed := feed.move
    let (server, result) := server.submit ⟨none, (feed.delta now).compact⟩
    let feed := { feed with second := feed.second + 1 }
    match result with
    | .ok () => (feed, (server.settle now).1)
    | .error _ => ({ feed with isRunning := false }, server)

/-- What happens in a number of seconds. -/
def ticks (now : Instant) : Nat → Feed → Server → Feed × Server
  | 0, feed, server => (feed, server)
  | seconds + 1, feed, server =>
      let (feed, server) := feed.tick server now
      ticks now seconds feed server

end Feed

end VesselHub
