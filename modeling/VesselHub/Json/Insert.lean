/-
Module: VesselHub.Json.Insert
Purpose: Put a value into a document along a list of keys.
Main exports: Json.insertAt, Json.walk?
-/
import VesselHub.Json.Value

namespace VesselHub.Json

/-- The members of an object; other values count as having none. -/
def membersOf : Json → List (String × Json)
  | .object members => members
  | _ => []

/-- Puts a value at the end of a path. Objects on the way are created, and whatever else stands
there gives way to one. -/
def insertAt (document : Json) : List String → Json → Json
  | [], value => value
  | key :: keys, value =>
      let members := document.membersOf
      let inner := (Entries.get? members key).getD (.object [])
      .object (Entries.insert members key (insertAt inner keys value))

/-- The value that a path leads to through objects. -/
def walk? : Json → List String → Option Json
  | value, [] => some value
  | value, key :: keys => (value.member? key).bind fun inner => walk? inner keys

/-- What was put at a path is found there. -/
theorem walk?_insertAt_self (document : Json) (keys : List String) (value : Json) :
    (document.insertAt keys value).walk? keys = some value := by
  induction keys generalizing document with
  | nil => rfl
  | cons key keys induction_step =>
      simp [insertAt, walk?, member?, Entries.get?_insert_self, induction_step]

end VesselHub.Json
