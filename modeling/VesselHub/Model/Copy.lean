/-
Module: VesselHub.Model.Copy
Purpose: Read the model off as a tree, and plant a tree as a model of its own.
Main exports: Model.tree, Model.treeAt?, Model.ofTree, Model.duplicate, Model.safe
-/
import VesselHub.Model.Navigate
import VesselHub.Tree.Basic

namespace VesselHub.Model

/-- The tree below a node, down to `depth` levels. -/
def treeWithin (model : Model) : Nat → NodeId → Tree
  | 0, _ => .empty
  | depth + 1, id =>
      match model.content? id with
      | none => .empty
      | some (.leaf held) => .leaf held
      | some (.object children) =>
          .object (children.map fun entry => (entry.1, model.treeWithin depth entry.2))
      | some (.array items) => .array (items.map (model.treeWithin depth))

/-- The tree below a node. No branch is deeper than there are slots. -/
def treeOf (model : Model) (id : NodeId) : Tree :=
  model.treeWithin model.slots.size id

/-- The whole model as a tree. -/
def tree (model : Model) : Tree :=
  model.treeOf model.root

/-- The tree below a node that is there. -/
def treeAt? (model : Model) (id : NodeId) : Option Tree :=
  if model.contains id then some (model.treeOf id) else none

/-- The document that the model is. -/
def document (model : Model) : Json :=
  model.tree.encode

mutual

/-- Plants a tree below a parent. -/
def plant (model : Model) (parent : NodeId) : Tree → Model × NodeId
  | .leaf held => model.allocate (some parent) (.leaf held)
  | .object children =>
      let (model, node) := model.allocate (some parent) (.object [])
      let (model, planted) := plantChildren model node children
      (model.setContent node (.object planted), node)
  | .array items =>
      let (model, node) := model.allocate (some parent) (.array [])
      let (model, planted) := plantItems model node items
      (model.setContent node (.array planted), node)

def plantChildren (model : Model) (parent : NodeId) :
    List (String × Tree) → Model × List (String × NodeId)
  | [] => (model, [])
  | (key, child) :: children =>
      let (model, node) := plant model parent child
      let (model, planted) := plantChildren model parent children
      (model, (key, node) :: planted)

def plantItems (model : Model) (parent : NodeId) : List Tree → Model × List NodeId
  | [] => (model, [])
  | item :: items =>
      let (model, node) := plant model parent item
      let (model, planted) := plantItems model parent items
      (model, node :: planted)

end

/-- The model that holds a tree. -/
def ofTree (resolver : Resolver) : Tree → Model
  | .leaf held => ofRoot resolver (.leaf held)
  | .object children =>
      let model := ofRoot resolver (.object [])
      let (planted, entries) := plantChildren model model.root children
      planted.setContent model.root (.object entries)
  | .array items =>
      let model := ofRoot resolver (.array [])
      let (planted, nodes) := plantItems model model.root items
      planted.setContent model.root (.array nodes)

/-- A copy of the model in slots of its own. -/
def duplicate (model : Model) : Model :=
  ofTree model.resolver model.tree

/-- A copy of the branch at a node without private branches. The branch becomes the root; of a
node that is gone, nothing is left. -/
def safeSubtree (model : Model) (id : NodeId) : Model :=
  ofTree model.resolver (model.treeOf id).safe

/-- A copy of the model without private branches. -/
def safe (model : Model) : Model :=
  model.safeSubtree model.root

/-- The leaves below a node with their dotted paths. -/
def leaves (model : Model) (id : NodeId) : List (String × Leaf) :=
  match model.treeAt? id with
  | some tree => tree.leaves
  | none => []

/-- The document below a node; `null` for a node that is gone. -/
def documentAt (model : Model) (id : NodeId) : Json :=
  match model.treeAt? id with
  | some tree => tree.encode
  | none => .null

/-- The first leaf below a node whose full path ends with the segments of `key`. -/
def findLeaf? (model : Model) (below : NodeId) (key : String) : Option Leaf :=
  (model.pathOf? below).bind fun trail => (model.treeOf below).findLeaf? trail key

end VesselHub.Model
