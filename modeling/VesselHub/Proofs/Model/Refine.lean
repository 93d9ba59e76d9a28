/-
Module: VesselHub.Proofs.Model.Refine
Purpose: The model refines a plain ordered tree: writing into the slots of any model that a run
  leaves is the same write on the tree that is read off from its root.
Main exports: Model.RefinesTree, Model.run_refinesTree
-/
import VesselHub.Proofs.Model.Run

namespace VesselHub.Model

/-- Every write to the model is the same write to its tree. -/
structure RefinesTree (model : Model) : Prop where
  addPath : ∀ path,
    (model.addPath path).1.tree = Tree.addPath model.resolver model.tree path
  /-- Every node stands at a place of the tree, and a leaf is written there. -/
  located : ∀ node, model.contains node → ∃ places, model.descend? model.root places = some node
  put : ∀ node places, model.descend? model.root places = some node →
    ∀ key value source timestamp, ∃ after child,
      model.put? node key value source timestamp = some (after, child) ∧
        after.tree = model.tree.changeAtPlace places fun branch =>
          branch.putLeaf key { value, source := some source, timestamp := some timestamp }
  merge : ∀ document,
    (model.merge document).tree = Tree.merge model.resolver model.tree document
  mergeAt : ∀ path key document,
    (model.mergeAt path key document).tree =
      Tree.mergeAt model.resolver model.tree path key document
  mergeAtFull : ∀ path document,
    (model.mergeAtFull path document).tree =
      Tree.mergeAtFull model.resolver model.tree path document
  deleteAt : ∀ path key,
    (model.deleteAt path key).1.tree = Tree.deleteAt model.resolver model.tree path key

theorem Intact.refinesTree {model : Model} {layout : Layout} (intact : model.Intact layout) :
    model.RefinesTree where
  addPath path := (becomes_addPath intact path).tree_eq
  located _ live := intact.exists_place live
  put node places found key value source timestamp := by
    obtain ⟨after, child, put_eq, becomes⟩ := becomes_put intact found key value source timestamp
    exact ⟨after, child, put_eq, becomes.tree_eq⟩
  merge document := (becomes_merge intact document).tree_eq
  mergeAt path key document := (becomes_mergeAt intact path key document).tree_eq
  mergeAtFull path document := (becomes_mergeAtFull intact path document).tree_eq
  deleteAt path key := (becomes_deleteAt intact path key).tree_eq

/-- After any run, the model refines its tree. -/
theorem run_refinesTree (id : String) (operations : List Operation) :
    (run id operations).RefinesTree := by
  obtain ⟨layout, intact⟩ := run_intact id operations
  exact intact.refinesTree

end VesselHub.Model
