/-
Module: VesselHub.Time.Duration
Purpose: Spans of time as the log shows them.
Main exports: Duration.text
-/
import VesselHub.Json.Decode
import VesselHub.Time.Instant

namespace VesselHub.Duration

/-- The thousandths behind a whole number of seconds, without zeros at the end. -/
def fraction (thousandths : Nat) : List Char :=
  if thousandths = 0 then []
  else '.' :: ((Instant.padded 3 thousandths).reverse.dropWhile (· == '0')).reverse

/-- A number of milliseconds with its unit: seconds from one second on. -/
def text (milliseconds : Nat) : String :=
  if milliseconds = 0 then "0ns"
  else if milliseconds < 1000 then Json.countText milliseconds ++ "ms"
  else
    Json.countText (milliseconds / 1000) ++
      String.ofList (fraction (milliseconds % 1000)) ++ "s"

end VesselHub.Duration
