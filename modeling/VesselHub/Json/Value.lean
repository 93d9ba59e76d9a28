/-
Module: VesselHub.Json.Value
Purpose: JSON values with their members in order, and the equality that ignores that order.
Main exports: Json, Json.member?, Json.same
-/
import VesselHub.Decimal.Literal
import VesselHub.Entries

namespace VesselHub

/-- A JSON value. The members of an object are kept in the order in which they were written. -/
inductive Json where
  | null
  | bool (value : Bool)
  | number (value : Number)
  | string (value : String)
  | array (items : List Json)
  | object (members : List (String × Json))
deriving Inhabited, Repr

namespace Json

/-- The member of an object under a key; other values have no members. -/
def member? (value : Json) (key : String) : Option Json :=
  match value with
  | .object members => Entries.get? members key
  | _ => none

/-- An integer as a value. -/
def ofNat (number : Nat) : Json :=
  .number (.int number)

/-- A list of texts as a value. -/
def ofStrings (texts : List String) : Json :=
  .array (texts.map .string)

mutual

/-- Equality of values: numbers by their own equality, arrays item by item, objects by their
keys whatever the order. -/
def same : Json → Json → Bool
  | .null, .null => true
  | .bool left, .bool right => left == right
  | .number left, .number right => left.same right
  | .string left, .string right => left == right
  | .array left, .array right => sameItems left right
  | .object left, .object right => left.length == right.length && sameMembers left right
  | _, _ => false

def sameItems : List Json → List Json → Bool
  | [], [] => true
  | left :: lefts, right :: rights => left.same right && sameItems lefts rights
  | _, _ => false

/-- Whether every member on the left has an equal one of the same key on the right. -/
def sameMembers : List (String × Json) → List (String × Json) → Bool
  | [], _ => true
  | (key, left) :: lefts, rights =>
      (match Entries.get? rights key with
        | some right => left.same right
        | none => false) && sameMembers lefts rights

end

mutual

/-- No object inside the value repeats a key. -/
def HasDistinctKeys : Json → Prop
  | .array items => ItemsHaveDistinctKeys items
  | .object members => (Entries.keys members).Nodup ∧ MembersHaveDistinctKeys members
  | _ => True

/-- No object inside the items repeats a key. -/
def ItemsHaveDistinctKeys : List Json → Prop
  | [] => True
  | item :: items => item.HasDistinctKeys ∧ ItemsHaveDistinctKeys items

/-- No object inside the members' values repeats a key. -/
def MembersHaveDistinctKeys : List (String × Json) → Prop
  | [] => True
  | (_, value) :: members => value.HasDistinctKeys ∧ MembersHaveDistinctKeys members

end

end Json

end VesselHub
