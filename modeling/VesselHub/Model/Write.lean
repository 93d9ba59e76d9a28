/-
Module: VesselHub.Model.Write
Purpose: Write into the model: branches, leaves, documents and deletions.
Main exports: Model.ofSelf, Model.addNode?, Model.put?, Model.merge, Model.mergeAt, Model.delete
-/
import VesselHub.Log
import VesselHub.Model.Navigate

namespace VesselHub.Model

/-- Creates the objects along keys and returns the last one. -/
def ensurePath (model : Model) (start : NodeId) : List String → Model × NodeId
  | [] => (model, start)
  | key :: keys =>
      let (model, child) := model.ensureObject start key
      ensurePath model child keys

/-- Creates the objects along a path below a node. Whatever else stands on the way becomes an
object. A node that is gone gets none. -/
def addNode? (model : Model) (start : NodeId) (path : String) : Option (Model × NodeId) :=
  if model.contains start then
    some (model.ensurePath start (model.pathBelow start path).segments)
  else none

/-- Creates the objects along an absolute path. -/
def addPath (model : Model) (path : String) : Model × NodeId :=
  (model.addNode? model.root path).getD (model, model.root)

/-- The model of a hub for a local vessel, which has an empty branch. -/
def ofSelf (id : String) : Model :=
  let empty := ofRoot (.ofText id) (.object [])
  (empty.addPath empty.resolver.selfContext).1

/-- Writes a leaf with its provenance under a key of a node. -/
def put? (model : Model) (node : NodeId) (key : String) (value : Json) (source : String)
    (timestamp : Instant) : Option (Model × NodeId) :=
  if model.contains node then
    some (model.setLeaf node key
      { value, source := some source, timestamp := some timestamp })
  else none

mutual

/-- Merges a document into the child under a key of a parent. An object is merged member by
member, a leaf overwrites a leaf, and all else replaces what was there. A leaf with a bad time
changes nothing. -/
def mergeChild (model : Model) (parent : NodeId) (key : String) : Json → Model
  | .object members =>
      if Entries.contains members "value" then
        match Leaf.decode members with
        | .ok leaf => (model.setLeaf parent key leaf).1
        | .error _ => model
      else
        let (model, child) := model.ensureObject parent key
        mergeMembers model child members
  | .array items =>
      let model := model.makeObject parent
      let (model, array) := model.allocate (some parent) (.array [])
      let (model, built) := buildItems model array items
      (model.setContent array (.array built)).attach parent key array
  | .null => (model.setLeaf parent key (.bare .null)).1
  | .bool value => (model.setLeaf parent key (.bare (.bool value))).1
  | .number value => (model.setLeaf parent key (.bare (.number value))).1
  | .string value => (model.setLeaf parent key (.bare (.string value))).1

def mergeMembers (model : Model) (parent : NodeId) : List (String × Json) → Model
  | [] => model
  | (key, value) :: members => mergeMembers (mergeChild model parent key value) parent members

/-- Builds the node of an array item. An item that is a leaf with a bad time is skipped. -/
def buildItem (model : Model) (array : NodeId) : Json → Model × Option NodeId
  | .object members =>
      if Entries.contains members "value" then
        match Leaf.decode members with
        | .ok leaf =>
            let (model, node) := model.allocate (some array) (.leaf leaf)
            (model, some node)
        | .error _ => (model, none)
      else
        let (model, node) := model.allocate (some array) (.object [])
        (mergeMembers model node members, some node)
  | .array items =>
      let (model, node) := model.allocate (some array) (.array [])
      let (model, built) := buildItems model node items
      (model.setContent node (.array built), some node)
  | .null =>
      let (model, node) := model.allocate (some array) (.leaf (.bare .null))
      (model, some node)
  | .bool value =>
      let (model, node) := model.allocate (some array) (.leaf (.bare (.bool value)))
      (model, some node)
  | .number value =>
      let (model, node) := model.allocate (some array) (.leaf (.bare (.number value)))
      (model, some node)
  | .string value =>
      let (model, node) := model.allocate (some array) (.leaf (.bare (.string value)))
      (model, some node)

def buildItems (model : Model) (array : NodeId) : List Json → Model × List NodeId
  | [] => (model, [])
  | item :: items =>
      let (model, node) := buildItem model array item
      let (model, nodes) := buildItems model array items
      (model, node.toList ++ nodes)

end

/-- Merges the vessels of a document below their node, `self` under the local id. -/
def mergeVessels (model : Model) (parent : NodeId) : List (String × Json) → Model
  | [] => model
  | (key, value) :: vessels =>
      mergeVessels (model.mergeChild parent (model.resolver.resolveKey key) value) parent vessels

/-- Merges the top-level members of a document. -/
def mergeTop (model : Model) : List (String × Json) → Model
  | [] => model
  | (key, value) :: members =>
      let merged := match value with
        | .object vessels =>
            if key = vesselsKey then
              let (model, node) := model.ensureObject model.root key
              model.mergeVessels node vessels
            else model.mergeChild model.root key value
        | _ => model.mergeChild model.root key value
      mergeTop merged members

/-- Merges a whole document. Only objects are documents. -/
def merge (model : Model) : Json → Model
  | .object members => model.mergeTop members
  | _ => model

/-- Merges a document under a key of the branch at a path. -/
def mergeAt (model : Model) (path key : String) (document : Json) : Model :=
  let (model, parent) := model.addPath path
  model.mergeChild parent key document

/-- Merges a document at a path. The empty path is the whole model. -/
def mergeAtFull (model : Model) (path : String) (document : Json) : Model :=
  let resolved := model.resolver.resolve path
  match resolved.last? with
  | some key => model.mergeAt resolved.parent.raw key document
  | none => model.merge document

/-- Removes the child under a key of an object, and tells whether there was one. -/
def delete (model : Model) (node : NodeId) (key : String) : Model × Bool :=
  match model.content? node with
  | some (.object children) =>
      match Entries.get? children key with
      | some child =>
          ((model.setContent node (.object (Entries.erase children key))).release child, true)
      | none => (model, false)
  | _ => (model, false)

/-- Removes the child under a key of the object at a path. -/
def deleteAt (model : Model) (path key : String) : Model × Bool :=
  match model.nodeAt? path with
  | some node => model.delete node key
  | none => (model, false)

end VesselHub.Model
