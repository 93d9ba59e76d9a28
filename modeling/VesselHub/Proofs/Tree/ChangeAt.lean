/-
Module: VesselHub.Proofs.Tree.ChangeAt
Purpose: Changes at the end of keys. A change sees the branch that the keys lead to, whatever else
  stood on the way, and the objects on the way are made once.
Main exports: Tree.through, Tree.changeAt_eq_const, Tree.changeAt_append,
  Tree.changeAt_changeAt_id, Tree.changeAt_id_of_below
-/
import VesselHub.Tree.Merge

namespace VesselHub.Tree

@[simp] theorem childrenOf_object (children : List (String × Tree)) :
    childrenOf (.object children) = children := rfl

theorem setChild_setChild (tree first second : Tree) (key : String) :
    (tree.setChild key first).setChild key second = tree.setChild key second := by
  simp [setChild, Entries.insert_insert]

theorem objectAt_setChild (tree child : Tree) (key : String) :
    (tree.setChild key child).objectAt key = .object child.childrenOf := by
  simp [setChild, objectAt, Entries.get?_insert_self]

theorem object_childrenOf_changeAt (children : List (String × Tree)) (keys : List String) :
    object (childrenOf (changeAt (.object children) keys id)) =
      changeAt (.object children) keys id := by
  cases keys <;> rfl

/-- Creating the objects along a path first makes no difference to a change at its end. -/
theorem changeAt_changeAt_id (tree : Tree) (keys : List String) (change : Tree → Tree) :
    (tree.changeAt keys id).changeAt keys change = tree.changeAt keys change := by
  induction keys generalizing tree with
  | nil => rfl
  | cons key keys induction_step =>
      simp only [changeAt]
      rw [objectAt_setChild, setChild_setChild, objectAt, object_childrenOf_changeAt,
        induction_step]

theorem changeAt_append (tree : Tree) (keys more : List String) (change : Tree → Tree) :
    tree.changeAt (keys ++ more) change =
      tree.changeAt keys fun branch => branch.changeAt more change := by
  induction keys generalizing tree with
  | nil => rfl
  | cons key keys induction_step => rw [List.cons_append, changeAt, changeAt, induction_step]

/-- Whatever is changed below a tree, the tree is an object then. -/
theorem changeAt_object (tree : Tree) {keys : List String} (below : keys ≠ [])
    (change : Tree → Tree) : ∃ children, tree.changeAt keys change = .object children := by
  cases keys with
  | nil => exact absurd rfl below
  | cons key keys => exact ⟨_, rfl⟩

/-- Below what was changed further down, all objects are there. -/
theorem changeAt_id_of_below (tree : Tree) (keys : List String) {more : List String}
    (below : more ≠ []) (change : Tree → Tree) :
    (tree.changeAt (keys ++ more) change).changeAt keys id =
      tree.changeAt (keys ++ more) change := by
  induction keys generalizing tree with
  | nil => rfl
  | cons key keys induction_step =>
      obtain ⟨children, is_object⟩ :=
        (tree.objectAt key).changeAt_object (List.append_ne_nil_of_right_ne_nil keys below) change
      have inner := induction_step (tree.objectAt key)
      rw [is_object] at inner
      rw [List.cons_append, changeAt, changeAt, is_object, objectAt_setChild, childrenOf_object,
        inner, setChild_setChild]

/-! ### What a change sees -/

/-- The branch that keys lead to, with an object in the place of what else stands on the way. -/
def through (tree : Tree) : List String → Tree
  | [] => tree
  | key :: keys => (tree.objectAt key).through keys

theorem through_append (tree : Tree) (keys more : List String) :
    tree.through (keys ++ more) = (tree.through keys).through more := by
  induction keys generalizing tree with
  | nil => rfl
  | cons key keys induction_step => exact induction_step _

/-- A change depends on the branch that the keys lead to. -/
theorem changeAt_eq_const (tree : Tree) (keys : List String) (change : Tree → Tree) :
    tree.changeAt keys change = tree.changeAt keys fun _ => change (tree.through keys) := by
  induction keys generalizing tree with
  | nil => rfl
  | cons key keys induction_step => rw [changeAt, changeAt, through, induction_step]

/-- Creating the objects along keys leaves the branch at their end as it is seen. -/
theorem through_changeAt_id (tree : Tree) (keys : List String) :
    (tree.changeAt keys id).through keys = tree.through keys := by
  induction keys generalizing tree with
  | nil => rfl
  | cons key keys induction_step =>
      rw [changeAt, through, through, objectAt_setChild, objectAt, object_childrenOf_changeAt,
        induction_step]

theorem through_object (children : List (String × Tree)) (keys : List String) :
    ∃ inner, (object children).through keys = .object inner := by
  induction keys generalizing children with
  | nil => exact ⟨children, rfl⟩
  | cons key keys induction_step => exact induction_step _

/-- Below the root there is always an object. -/
theorem through_of_ne_nil (tree : Tree) {keys : List String} (below : keys ≠ []) :
    ∃ inner, tree.through keys = .object inner := by
  cases keys with
  | nil => exact absurd rfl below
  | cons key keys => exact through_object _ keys

end VesselHub.Tree
