/-
Module: VesselHub.Tree.Basic
Purpose: The model as a plain ordered tree: what every answer is computed from.
Main exports: Tree, Tree.walk?, Tree.leaves, Tree.findLeaf?, Tree.safe, Tree.encode
-/
import VesselHub.Leaf
import VesselHub.Path.Basic

namespace VesselHub

/-- A branch of the model: named children in insertion order, positional children, or a leaf. -/
inductive Tree where
  | object (children : List (String × Tree))
  | array (items : List Tree)
  | leaf (held : Leaf)

namespace Tree

/-- The branch that holds nothing. -/
def empty : Tree := .object []

instance : Inhabited Tree := ⟨empty⟩

/-- The child under a key. -/
def child? (tree : Tree) (key : String) : Option Tree :=
  match tree with
  | .object children => Entries.get? children key
  | .array items => (Path.position? key).bind fun position => items[position]?
  | .leaf _ => none

/-- The branch that keys lead to. -/
def walk? (tree : Tree) : List String → Option Tree
  | [] => some tree
  | key :: keys => (tree.child? key).bind fun child => walk? child keys

mutual

/-- The leaves with the keys that lead to them, depth first. -/
def leafTrails : Tree → List (List String × Leaf)
  | .leaf held => [([], held)]
  | .object children => childTrails children
  | .array items => itemTrails 0 items

def childTrails : List (String × Tree) → List (List String × Leaf)
  | [] => []
  | (key, child) :: children =>
      (child.leafTrails.map fun found => (key :: found.1, found.2)) ++ childTrails children

def itemTrails : Nat → List Tree → List (List String × Leaf)
  | _, [] => []
  | position, item :: items =>
      (item.leafTrails.map fun found => (Path.positionKey position :: found.1, found.2)) ++
        itemTrails (position + 1) items

end

/-- The leaves with their dotted paths, depth first. -/
def leaves (tree : Tree) : List (String × Leaf) :=
  tree.leafTrails.map fun found => (Path.dotted found.1, found.2)

mutual

/-- The first leaf, depth first, whose keys end with the wanted ones. `trail` are the keys that
lead to this branch, latest first. -/
def findFrom (wanted : List String) (trail : List String) : Tree → Option Leaf
  | .leaf held => if Path.endsWithKeys trail.reverse wanted then some held else none
  | .object children => findAmong wanted trail children
  | .array items => findAt wanted trail 0 items

def findAmong (wanted : List String) (trail : List String) : List (String × Tree) → Option Leaf
  | [] => none
  | (key, child) :: children =>
      (findFrom wanted (key :: trail) child).or (findAmong wanted trail children)

def findAt (wanted : List String) (trail : List String) : Nat → List Tree → Option Leaf
  | _, [] => none
  | position, item :: items =>
      (findFrom wanted (Path.positionKey position :: trail) item).or
        (findAt wanted trail (position + 1) items)

end

/-- The first leaf below a branch at `trail` whose keys end with those of `key`. A key without
segments finds nothing. -/
def findLeaf? (tree : Tree) (trail : List String) (key : String) : Option Leaf :=
  let wanted := Path.segmentsOf key
  if wanted.isEmpty then none else findFrom wanted trail.reverse tree

mutual

/-- The tree without its private branches, at every depth. -/
def safe : Tree → Tree
  | .leaf held => .leaf held
  | .object children => .object (safeChildren children)
  | .array items => .array (safeItems items)

def safeChildren : List (String × Tree) → List (String × Tree)
  | [] => []
  | (key, child) :: children =>
      if Path.isPrivateKey key then safeChildren children
      else (key, child.safe) :: safeChildren children

def safeItems : List Tree → List Tree
  | [] => []
  | item :: items => item.safe :: safeItems items

end

mutual

/-- The tree as a document. Leaves have their outbound form. -/
def encode : Tree → Json
  | .leaf held => held.encode
  | .object children => .object (encodeChildren children)
  | .array items => .array (encodeItems items)

def encodeChildren : List (String × Tree) → List (String × Json)
  | [] => []
  | (key, child) :: children => (key, child.encode) :: encodeChildren children

def encodeItems : List Tree → List Json
  | [] => []
  | item :: items => item.encode :: encodeItems items

end

mutual

/-- How many branches and leaves the tree has, itself included. -/
def size : Tree → Nat
  | .leaf _ => 1
  | .object children => childrenSize children + 1
  | .array items => itemsSize items + 1

def childrenSize : List (String × Tree) → Nat
  | [] => 0
  | (_, child) :: children => child.size + childrenSize children

def itemsSize : List Tree → Nat
  | [] => 0
  | item :: items => item.size + itemsSize items

end

/-- Looks up an absolute path. -/
def at? (tree : Tree) (resolver : Resolver) (path : String) : Option Tree :=
  tree.walk? (resolver.resolve path).segments

end Tree

end VesselHub
