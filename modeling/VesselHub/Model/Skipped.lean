/-
Module: VesselHub.Model.Skipped
Purpose: Which leaves of a document a merge skips, as it is logged. This depends on the document
  alone.
Main exports: Model.skippedInDocument, Model.skippedBelow, Model.skippedAtFull
-/
import VesselHub.Log
import VesselHub.Model.Basic

namespace VesselHub.Model

mutual

/-- The lines about leaves that are skipped when a document is merged under a key. -/
def skippedBelow (key : String) : Json → List LogLine
  | .object members =>
      if Entries.contains members "value" then
        match Leaf.decode members with
        | .ok _ => []
        | .error cause => [.warn ("Skipping " ++ key ++ ": " ++ cause.message)]
      else skippedMembers members
  | .array items => skippedItems items
  | _ => []

def skippedMembers : List (String × Json) → List LogLine
  | [] => []
  | (key, value) :: members => skippedBelow key value ++ skippedMembers members

/-- The lines about an array item. -/
def skippedItem : Json → List LogLine
  | .object members =>
      if Entries.contains members "value" then
        match Leaf.decode members with
        | .ok _ => []
        | .error cause => [.warn ("Skipping array element: " ++ cause.message)]
      else skippedMembers members
  | .array items => skippedItems items
  | _ => []

def skippedItems : List Json → List LogLine
  | [] => []
  | item :: items => skippedItem item ++ skippedItems items

end

/-- The lines about the vessels of a document, `self` under the local id. -/
def skippedVessels (resolver : Resolver) : List (String × Json) → List LogLine
  | [] => []
  | (key, value) :: vessels =>
      skippedBelow (resolver.resolveKey key) value ++ skippedVessels resolver vessels

/-- The lines about the top-level members of a document. -/
def skippedTop (resolver : Resolver) : List (String × Json) → List LogLine
  | [] => []
  | (key, value) :: members =>
      let here := match value with
        | .object vessels =>
            if key = vesselsKey then skippedVessels resolver vessels else skippedBelow key value
        | _ => skippedBelow key value
      here ++ skippedTop resolver members

/-- The lines about a whole document. -/
def skippedInDocument (resolver : Resolver) : Json → List LogLine
  | .object members => skippedTop resolver members
  | _ => [.warn "Ignoring non-object document"]

/-- The lines about a document that is merged at a path. -/
def skippedAtFull (model : Model) (path : String) (document : Json) : List LogLine :=
  match (model.resolver.resolve path).last? with
  | some key => skippedBelow key document
  | none => skippedInDocument model.resolver document

end VesselHub.Model
