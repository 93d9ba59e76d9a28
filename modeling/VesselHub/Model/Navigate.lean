/-
Module: VesselHub.Model.Navigate
Purpose: Find nodes by path, and paths of nodes.
Main exports: Model.walk?, Model.nodeAt?, Model.findNode?, Model.pathOf?
-/
import VesselHub.Model.Basic

namespace VesselHub.Model

/-- Follows keys from a node, without aliases. -/
def walk? (model : Model) (start : NodeId) : List String → Option NodeId
  | [] => if model.contains start then some start else none
  | key :: keys => (model.child? start key).bind fun child => walk? model child keys

/-- The node at an absolute path given in parts, which may be dotted themselves. -/
def nodeAtParts? (model : Model) (parts : List String) : Option NodeId :=
  model.walk? model.root (model.resolver.resolveParts parts).segments

/-- The node at an absolute path. -/
def nodeAt? (model : Model) (path : String) : Option NodeId :=
  model.walk? model.root (model.resolver.resolve path).segments

/-- The path that a text means below a node: the alias is known below the root only. -/
def pathBelow (model : Model) (node : NodeId) (text : String) : Path :=
  if node = model.root then model.resolver.resolve text else Path.ofText text

/-- The node at a path below another. -/
def findNode? (model : Model) (below : NodeId) (path : String) : Option NodeId :=
  model.walk? below (model.pathBelow below path).segments

/-- The branch of the local vessel. -/
def selfNode? (model : Model) : Option NodeId :=
  model.nodeAt? model.resolver.selfContext

/-- The key under which a parent lists a child. -/
def keyOf? (model : Model) (parent child : NodeId) : Option String :=
  match model.content? parent with
  | some (.object children) => (children.find? fun entry => entry.2 = child).map Prod.fst
  | some (.array items) => (items.findIdx? (· = child)).map Path.positionKey
  | _ => none

/-- Climbs from a node to the root, at most `height` levels, putting keys in front of `below`. -/
def climb (model : Model) : Nat → NodeId → List String → Option (List String)
  | 0, _, _ => none
  | height + 1, id, below =>
      match model.node? id with
      | none => none
      | some node =>
          match node.parent with
          | none => if id = model.root then some below else none
          | some parent =>
              (model.keyOf? parent id).bind fun key => climb model height parent (key :: below)

/-- The keys that lead from the root to a node. -/
def pathOf? (model : Model) (id : NodeId) : Option (List String) :=
  model.climb model.slots.size id []

end VesselHub.Model
