/-
Module: VesselHub.Tree.Merge
Purpose: The operations of the model on plain trees: writing leaves, creating branches, merging
  documents and deleting.
Main exports: Tree.addPath, Tree.merge, Tree.mergeAt, Tree.mergeAtFull, Tree.deleteAt
-/
import VesselHub.Tree.Basic

namespace VesselHub.Tree

/-- The children of an object; other trees count as having none. -/
def childrenOf : Tree → List (String × Tree)
  | .object children => children
  | _ => []

/-- Puts a tree under a key. What is not an object becomes one. -/
def setChild (tree : Tree) (key : String) (child : Tree) : Tree :=
  .object (Entries.insert tree.childrenOf key child)

/-- The object under a key. Anything else there, or nothing, counts as an empty object. -/
def objectAt (tree : Tree) (key : String) : Tree :=
  .object ((Entries.get? tree.childrenOf key).getD empty).childrenOf

/-- Applies a change to the object at the end of a path, creating objects on the way. -/
def changeAt (tree : Tree) (keys : List String) (change : Tree → Tree) : Tree :=
  match keys with
  | [] => change tree
  | key :: keys => tree.setChild key (changeAt (tree.objectAt key) keys change)

/-- Applies a change to the branch that keys lead to, if there is one. -/
def modifyAt (tree : Tree) (keys : List String) (change : Tree → Tree) : Tree :=
  match keys with
  | [] => change tree
  | key :: keys =>
      match tree with
      | .object children =>
          .object (children.map fun entry =>
            if entry.1 = key then (entry.1, modifyAt entry.2 keys change) else entry)
      | .array items =>
          match Path.position? key with
          | some position =>
              .array (items.modify position fun item => modifyAt item keys change)
          | none => .array items
      | .leaf held => .leaf held

/-- Writes a leaf under a key. -/
def putLeaf (tree : Tree) (key : String) (leaf : Leaf) : Tree :=
  tree.setChild key (.leaf leaf)

mutual

/-- Merges a document into the child under a key: an object into an object member by member, and
everything else in place of what was there. A leaf with a bad time changes nothing. -/
def mergeChild (tree : Tree) (key : String) : Json → Tree
  | .object members =>
      if Entries.contains members "value" then
        match Leaf.decode members with
        | .ok held => tree.putLeaf key held
        | .error _ => tree
      else tree.setChild key (mergeMembers (tree.objectAt key) members)
  | .array items => tree.setChild key (.array (buildItems items))
  | .null => tree.putLeaf key (.bare .null)
  | .bool value => tree.putLeaf key (.bare (.bool value))
  | .number value => tree.putLeaf key (.bare (.number value))
  | .string value => tree.putLeaf key (.bare (.string value))

def mergeMembers (tree : Tree) : List (String × Json) → Tree
  | [] => tree
  | (key, value) :: members => mergeMembers (mergeChild tree key value) members

/-- The tree of an array item, unless it is a leaf with a bad time. -/
def buildItem : Json → Option Tree
  | .object members =>
      if Entries.contains members "value" then
        match Leaf.decode members with
        | .ok held => some (.leaf held)
        | .error _ => none
      else some (mergeMembers empty members)
  | .array items => some (.array (buildItems items))
  | .null => some (.leaf (.bare .null))
  | .bool value => some (.leaf (.bare (.bool value)))
  | .number value => some (.leaf (.bare (.number value)))
  | .string value => some (.leaf (.bare (.string value)))

/-- The trees of array items; those with a bad time are left out. -/
def buildItems : List Json → List Tree
  | [] => []
  | item :: items => (buildItem item).toList ++ buildItems items

end

/-- Merges the vessels of a document, `self` under the local id. -/
def mergeVessels (resolver : Resolver) (tree : Tree) : List (String × Json) → Tree
  | [] => tree
  | (key, value) :: vessels =>
      mergeVessels resolver (tree.mergeChild (resolver.resolveKey key) value) vessels

/-- Merges the top-level members of a document. -/
def mergeTop (resolver : Resolver) (tree : Tree) : List (String × Json) → Tree
  | [] => tree
  | (key, value) :: members =>
      let merged := match value with
        | .object vessels =>
            if key = vesselsKey then
              tree.setChild key (mergeVessels resolver (tree.objectAt key) vessels)
            else tree.mergeChild key value
        | _ => tree.mergeChild key value
      mergeTop resolver merged members

/-- Merges a whole document. Only objects are documents. -/
def merge (resolver : Resolver) (tree : Tree) : Json → Tree
  | .object members => mergeTop resolver tree members
  | _ => tree

/-- Creates the objects along an absolute path. -/
def addPath (resolver : Resolver) (tree : Tree) (path : String) : Tree :=
  tree.changeAt (resolver.resolve path).segments id

/-- Merges a document under a key of the object at an absolute path. -/
def mergeAt (resolver : Resolver) (tree : Tree) (path key : String) (document : Json) : Tree :=
  tree.changeAt (resolver.resolve path).segments fun branch => branch.mergeChild key document

/-- Merges a document at an absolute path. The empty path is the whole tree. -/
def mergeAtFull (resolver : Resolver) (tree : Tree) (path : String) (document : Json) : Tree :=
  let resolved := resolver.resolve path
  match resolved.last? with
  | some key => mergeAt resolver tree resolved.parent.raw key document
  | none => merge resolver tree document

/-- Removes the child under a key of an object. -/
def deleteChild (tree : Tree) (key : String) : Tree :=
  match tree with
  | .object children => .object (Entries.erase children key)
  | other => other

/-- Removes the child under a key of the branch at an absolute path. -/
def deleteAt (resolver : Resolver) (tree : Tree) (path key : String) : Tree :=
  tree.modifyAt (resolver.resolve path).segments fun branch => branch.deleteChild key

end VesselHub.Tree
