/-
Module: VesselHub.Text.Order
Purpose: Put texts into increasing order, character by character.
Main exports: Text.sort
-/

namespace VesselHub.Text

/-- Puts a text before the first one that is not smaller. -/
def insertInOrder (text : String) : List String → List String
  | [] => [text]
  | first :: rest =>
      if first < text then first :: insertInOrder text rest else text :: first :: rest

/-- The texts in increasing order. -/
def sort : List String → List String
  | [] => []
  | text :: texts => insertInOrder text (sort texts)

end VesselHub.Text
