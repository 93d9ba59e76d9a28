/-
Module: VesselHub.Log
Purpose: What the hub tells its operator.
Main exports: LogLine, Step, Step.andThen
-/

namespace VesselHub

inductive LogLevel where
  | debug
  | info
  | warn
  | error
deriving DecidableEq, Repr

/-- One line of the log. -/
structure LogLine where
  level : LogLevel
  text : String
deriving DecidableEq, Repr

namespace LogLine

def debug (text : String) : LogLine := ⟨.debug, text⟩

def info (text : String) : LogLine := ⟨.info, text⟩

def warn (text : String) : LogLine := ⟨.warn, text⟩

end LogLine

/-- What one step does: the state that it leaves, its answer, and what it logs. -/
structure Step (State Answer : Type) where
  state : State
  answer : Answer
  log : List LogLine := []

namespace Step

/-- One step, and another one from the state that it leaves. -/
def andThen {State First Second : Type} (first : Step State First)
    (next : State → Step State Second) : Step State Second :=
  let second := next first.state
  { second with log := first.log ++ second.log }

/-- A step that does nothing. -/
def still {State : Type} (state : State) : Step State Unit :=
  { state, answer := () }

end Step

end VesselHub
