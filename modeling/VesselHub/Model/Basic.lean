/-
Module: VesselHub.Model.Basic
Purpose: The store behind the model: nodes in reusable slots, under ids that stay dead once their
  node is gone.
Main exports: NodeId, Content, Node, Slot, Model, Model.node?, Model.allocate, Model.release
-/
import VesselHub.Leaf
import VesselHub.Path.Basic

namespace VesselHub

/-- The name of a node. A slot that is used again gets a new generation, so the ids of what it
held before name nothing. An id keeps 32 bits for the index too. That the index is an unbounded
number here assumes that a model has fewer than 2^32 slots. -/
structure NodeId where
  index : Nat
  generation : UInt32
deriving DecidableEq, Repr, Inhabited

/-- What a node holds. -/
inductive Content where
  /-- Named children in insertion order. -/
  | object (children : List (String × NodeId))
  /-- Positional children. -/
  | array (items : List NodeId)
  | leaf (held : Leaf)

/-- The children of a node in order. -/
def Content.children : Content → List NodeId
  | .object children => Entries.values children
  | .array items => items
  | .leaf _ => []

def Content.isLeaf : Content → Bool
  | .leaf _ => true
  | _ => false

structure Node where
  parent : Option NodeId
  content : Content

/-- A place for a node. -/
structure Slot where
  generation : UInt32
  node : Option Node

/-- Everything that the hub knows, as a tree of nodes. -/
structure Model where
  slots : Array Slot
  /-- The empty slots; the one emptied last is used first. -/
  free : List Nat
  root : NodeId
  resolver : Resolver

namespace Model

/-- The node that an id names, if it is still there. -/
def node? (model : Model) (id : NodeId) : Option Node :=
  match model.slots[id.index]? with
  | some slot => if slot.generation = id.generation then slot.node else none
  | none => none

def contains (model : Model) (id : NodeId) : Bool :=
  (model.node? id).isSome

def content? (model : Model) (id : NodeId) : Option Content :=
  (model.node? id).map Node.content

def parent? (model : Model) (id : NodeId) : Option NodeId :=
  (model.node? id).bind Node.parent

/-- The leaf that an id names. -/
def leaf? (model : Model) (id : NodeId) : Option Leaf :=
  match model.content? id with
  | some (.leaf leaf) => some leaf
  | _ => none

/-- How many nodes there are, the root included. -/
def nodeCount (model : Model) : Nat :=
  model.slots.toList.countP fun slot => slot.node.isSome

/-- How many leaves there are. -/
def leafCount (model : Model) : Nat :=
  model.slots.toList.countP fun slot =>
    match slot.node with
    | some node => node.content.isLeaf
    | none => false

/-- Puts a new node into an empty slot, or into a new one if there is none. -/
def allocate (model : Model) (parent : Option NodeId) (content : Content) : Model × NodeId :=
  match model.free with
  | index :: free =>
      let generation := (model.slots[index]?.map Slot.generation).getD 0
      let slots := model.slots.modify index fun slot =>
        { slot with node := some { parent, content } }
      ({ model with slots, free }, { index, generation })
  | [] =>
      let slot := { generation := 0, node := some { parent, content } }
      ({ model with slots := model.slots.push slot },
        { index := model.slots.size, generation := 0 })

/-- Changes the node that an id names, if it is there. -/
def modifyNode (model : Model) (id : NodeId) (change : Node → Node) : Model :=
  { model with
    slots := model.slots.modify id.index fun slot =>
      if slot.generation = id.generation then { slot with node := slot.node.map change }
      else slot }

def setContent (model : Model) (id : NodeId) (content : Content) : Model :=
  model.modifyNode id fun node => { node with content }

def setParent (model : Model) (id parent : NodeId) : Model :=
  model.modifyNode id fun node => { node with parent := some parent }

/-- Empties the slot of a node, and with it retires the node's id. -/
def vacate (model : Model) (id : NodeId) : Model :=
  if model.contains id then
    { model with
      slots := model.slots.modify id.index fun slot =>
        { generation := slot.generation + 1, node := none }
      free := id.index :: model.free }
  else model

/-- A node and everything below it, down to `depth` levels, later children first. -/
def subtreeWithin (model : Model) : Nat → NodeId → List NodeId
  | 0, _ => []
  | depth + 1, id =>
      match model.node? id with
      | none => []
      | some node => id :: node.content.children.reverse.flatMap (model.subtreeWithin depth)

/-- A node and everything below it. No branch is deeper than there are slots. -/
def subtree (model : Model) (id : NodeId) : List NodeId :=
  model.subtreeWithin model.slots.size id

/-- Removes a node and everything below it. -/
def release (model : Model) (id : NodeId) : Model :=
  (model.subtree id).foldl vacate model

/-- The child of a node under a key. -/
def child? (model : Model) (id : NodeId) (key : String) : Option NodeId :=
  match model.content? id with
  | some (.object children) => Entries.get? children key
  | some (.array items) => (Path.position? key).bind fun position => items[position]?
  | _ => none

/-- Turns a node into an object. What it held before, if that was something else, is gone. -/
def makeObject (model : Model) (id : NodeId) : Model :=
  match model.content? id with
  | some (.array items) => items.foldl release (model.setContent id (.object []))
  | some (.leaf _) => model.setContent id (.object [])
  | _ => model

/-- Puts a node under a key of a parent and removes what was there. -/
def attach (model : Model) (parent : NodeId) (key : String) (id : NodeId) : Model :=
  let attached := match model.content? parent with
    | some (.object children) =>
        let model' := model.setContent parent (.object (Entries.insert children key id))
        match (Entries.get? children key).filter (· ≠ id) with
        | some replaced => model'.release replaced
        | none => model'
    | _ => model
  attached.setParent id parent

/-- The object under a key of a parent; it is created, or made out of what is there. -/
def ensureObject (model : Model) (parent : NodeId) (key : String) : Model × NodeId :=
  let model := model.makeObject parent
  match model.child? parent key with
  | some child => (model.makeObject child, child)
  | none =>
      let (model, child) := model.allocate (some parent) (.object [])
      (model.attach parent key child, child)

/-- Writes a leaf under a key of a parent. A leaf that is there is overwritten in place. -/
def setLeaf (model : Model) (parent : NodeId) (key : String) (leaf : Leaf) : Model × NodeId :=
  let model := model.makeObject parent
  match (model.child? parent key).filter fun child => (model.leaf? child).isSome with
  | some child => (model.setContent child (.leaf leaf), child)
  | none =>
      let (model, child) := model.allocate (some parent) (.leaf leaf)
      (model.attach parent key child, child)

/-- A model that holds nothing but its root. -/
def ofRoot (resolver : Resolver) (content : Content) : Model where
  slots := #[{ generation := 0, node := some { parent := none, content } }]
  free := []
  root := { index := 0, generation := 0 }
  resolver := resolver

end Model

end VesselHub
