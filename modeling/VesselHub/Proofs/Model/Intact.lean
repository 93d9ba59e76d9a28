/-
Module: VesselHub.Proofs.Model.Intact
Purpose: Whole models. An intact model holds one layout at its root and no other node, and every
  operation leaves an intact model whose tree is what the operation on plain trees makes of it.
Main exports: Model.Intact, Model.Becomes, Model.becomes_addPath, Model.becomes_mergeAtFull,
  Model.becomes_deleteAt, Model.becomes_put
-/
import VesselHub.Proofs.Model.Follow

namespace VesselHub.Model

/-- The model holds a layout at its root and no other node. -/
structure Intact (model : Model) (layout : Layout) : Prop where
  stores : model.Stores none layout
  at_root : layout.id = model.root
  complete : ∀ id, model.contains id → id ∈ layout.ids

/-- After a step, the model is intact, has the same root and local vessel and holds the tree. -/
structure Becomes (before after : Model) (tree : Tree) : Prop where
  intact : ∃ layout, after.Intact layout
  tree_eq : after.tree = tree
  root : after.root = before.root
  resolver : after.resolver = before.resolver

theorem Becomes.trans {first second third : Model} {tree last : Tree}
    (one : Becomes first second tree) (two : Becomes second third last) :
    Becomes first third last where
  intact := two.intact
  tree_eq := two.tree_eq
  root := two.root.trans one.root
  resolver := two.resolver.trans one.resolver

namespace Intact

variable {model after : Model} {layout whole : Layout}

theorem tree_eq (intact : model.Intact layout) : model.tree = layout.tree := by
  rw [tree, ← intact.at_root]
  exact intact.stores.tree_eq

/-- Replacing the whole layout leaves no other node behind. -/
theorem replaced (intact : model.Intact layout)
    (step : Replaces model after none layout whole) : after.Intact whole where
  stores := step.stores
  at_root := by rw [step.same_id, intact.at_root, step.change.root]
  complete id live := by
    by_contra absent
    by_cases was_there : id ∈ layout.ids
    · have gone := step.change.gone id was_there absent
      simp [contains, gone] at live
    · have same := step.change.frame id was_there absent
      rw [contains, same] at live
      exact was_there (intact.complete id live)

theorem becomes (intact : model.Intact layout) (step : Replaces model after none layout whole)
    {tree : Tree} (whole_tree : whole.tree = tree) : Becomes model after tree where
  intact := ⟨whole, intact.replaced step⟩
  tree_eq := by rw [(intact.replaced step).tree_eq, whole_tree]
  root := step.change.root
  resolver := step.change.resolver

theorem becomes_refl (intact : model.Intact layout) : Becomes model model model.tree :=
  ⟨⟨layout, intact⟩, rfl, rfl, rfl⟩

/-- A place that leads to a node is a place in the layout. -/
theorem leads (intact : model.Intact layout) {places : List Nat} {id : NodeId}
    (found : model.descend? model.root places = some id) :
    ∃ target, layout.Leads places target ∧ target.id = id :=
  leads_of_descend? intact.stores (by rw [intact.at_root, found])

/-- Every node stands at a place below the root. -/
theorem exists_place (intact : model.Intact layout) {id : NodeId} (live : model.contains id) :
    ∃ places, model.descend? model.root places = some id := by
  obtain ⟨places, target, leads, rfl⟩ := Layout.exists_leads (intact.complete id live)
  exact ⟨places, intact.at_root ▸ descend?_of_leads leads intact.stores⟩

/-- A leaf of the tree is the leaf of the node that its keys lead to. -/
theorem exists_leaf (intact : model.Intact layout) {keys : List String} {held : Leaf}
    (found : model.tree.walk? keys = some (.leaf held)) :
    ∃ node, model.walk? model.root keys = some node ∧ model.leaf? node = some held := by
  rw [intact.tree_eq, Layout.tree_walk?] at found
  obtain ⟨target, target_eq, target_tree⟩ := Option.map_eq_some_iff.1 found
  obtain ⟨places, leads, -⟩ := leads_of_walk? intact.stores target_eq
  obtain ⟨above, stored, -⟩ := stores_of_leads leads intact.stores
  refine ⟨target.id, ?_, ?_⟩
  · rw [← intact.at_root, walk?_of_stores intact.stores, target_eq]
    rfl
  · rw [leaf?, stored.holds.content?_eq]
    cases target with
    | leaf id leaf =>
        cases target_tree
        rfl
    | object id children => cases target_tree
    | array id items => cases target_tree

end Intact

variable {model : Model} {layout : Layout}

/-! ### At absolute paths -/

theorem addPath_eq (intact : model.Intact layout) (path : String) :
    model.addPath path = model.ensurePath layout.id (model.resolver.resolve path).segments := by
  have live : model.contains model.root :=
    intact.at_root ▸ intact.stores.holds.live layout.id_mem_ids
  rw [addPath, addNode?, if_pos live, pathBelow, if_pos rfl, Option.getD_some, intact.at_root]

theorem becomes_addPath (intact : model.Intact layout) (path : String) :
    Becomes model (model.addPath path).1 (Tree.addPath model.resolver model.tree path) := by
  obtain ⟨whole, target, replaced, -, -, whole_tree, -⟩ :=
    ensurePath_spec (model.resolver.resolve path).segments intact.stores
  rw [addPath_eq intact, intact.tree_eq]
  exact intact.becomes replaced whole_tree

theorem becomes_merge (intact : model.Intact layout) (document : Json) :
    Becomes model (model.merge document) (Tree.merge model.resolver model.tree document) := by
  obtain ⟨whole, replaced, whole_tree⟩ := merge_spec intact.stores intact.at_root document
  rw [intact.tree_eq]
  exact intact.becomes replaced whole_tree

theorem becomes_mergeAt (intact : model.Intact layout) (path key : String) (document : Json) :
    Becomes model (model.mergeAt path key document)
      (Tree.mergeAt model.resolver model.tree path key document) := by
  obtain ⟨whole, replaced, whole_tree⟩ :=
    replaces_at_path (model.resolver.resolve path).segments intact.stores _
      (fun branch => branch.mergeChild key document)
      fun target_stored target_id => target_id ▸ mergeChild_spec document key target_stored
  rw [mergeAt, addPath_eq intact, intact.tree_eq]
  exact intact.becomes replaced whole_tree

theorem becomes_mergeAtFull (intact : model.Intact layout) (path : String) (document : Json) :
    Becomes model (model.mergeAtFull path document)
      (Tree.mergeAtFull model.resolver model.tree path document) := by
  rw [mergeAtFull, Tree.mergeAtFull]
  cases (model.resolver.resolve path).last? with
  | some key => exact becomes_mergeAt intact _ key document
  | none => exact becomes_merge intact document

theorem becomes_deleteAt (intact : model.Intact layout) (path key : String) :
    Becomes model (model.deleteAt path key).1
      (Tree.deleteAt model.resolver model.tree path key) := by
  rw [deleteAt, nodeAt?, Tree.deleteAt, ← intact.at_root, walk?_of_stores intact.stores,
    intact.tree_eq]
  cases found : layout.walk? (model.resolver.resolve path).segments with
  | none =>
      rw [modifyAt_of_walk?_eq_none intact.stores found, ← intact.tree_eq]
      exact intact.becomes_refl
  | some target =>
      obtain ⟨places, leads, change_eq⟩ := leads_of_walk? intact.stores found
      obtain ⟨above, target_stored, lifts⟩ := stores_of_leads leads intact.stores
      obtain ⟨left, replaced, left_tree⟩ := replaces_delete target_stored key
      obtain ⟨whole, whole_replaced, whole_tree⟩ :=
        lifts (fun branch => branch.deleteChild key) replaced left_tree
      rw [change_eq]
      exact intact.becomes whole_replaced whole_tree

/-! ### At nodes -/

/-- A node at a place is stored, and replacing it changes the tree at that place. -/
theorem Intact.at_place (intact : model.Intact layout) {places : List Nat} {node : NodeId}
    (found : model.descend? model.root places = some node) :
    ∃ above target, target.id = node ∧ model.Stores above target ∧
      ∀ {after : Model} {new : Layout} (change : Tree → Tree),
        Replaces model after above target new → new.tree = change target.tree →
          Becomes model after (model.tree.changeAtPlace places change) := by
  obtain ⟨target, leads, target_id⟩ := intact.leads found
  obtain ⟨above, target_stored, lifts⟩ := stores_of_leads leads intact.stores
  refine ⟨above, target, target_id, target_stored, fun change step new_tree => ?_⟩
  obtain ⟨whole, whole_step, whole_tree⟩ := lifts change step new_tree
  rw [intact.tree_eq]
  exact intact.becomes whole_step whole_tree

theorem becomes_addNode (intact : model.Intact layout) {places : List Nat} {start : NodeId}
    (found : model.descend? model.root places = some start) (path : String) :
    ∃ after node, model.addNode? start path = some (after, node) ∧
      Becomes model after (model.tree.changeAtPlace places fun branch =>
        branch.changeAt (model.pathBelow start path).segments id) := by
  obtain ⟨above, target, rfl, stored, becomes⟩ := intact.at_place found
  obtain ⟨created, last, replaced, -, -, created_tree, -⟩ :=
    ensurePath_spec (model.pathBelow target.id path).segments stored
  have live := stored.holds.live target.id_mem_ids
  rw [addNode?, if_pos live]
  exact ⟨_, _, rfl, becomes (fun branch => branch.changeAt _ id) replaced created_tree⟩

/-- Writing a leaf under a key of a node changes the tree at the place of the node. -/
theorem becomes_put (intact : model.Intact layout) {places : List Nat} {node : NodeId}
    (found : model.descend? model.root places = some node) (key : String) (value : Json)
    (source : String) (timestamp : Instant) :
    ∃ after child, model.put? node key value source timestamp = some (after, child) ∧
      Becomes model after (model.tree.changeAtPlace places fun branch =>
        branch.putLeaf key { value, source := some source, timestamp := some timestamp }) := by
  obtain ⟨above, target, rfl, stored, becomes⟩ := intact.at_place found
  obtain ⟨written, replaced, written_tree⟩ := setLeaf_spec stored key
    { value, source := some source, timestamp := some timestamp }
  have live := stored.holds.live target.id_mem_ids
  rw [put?, if_pos live]
  exact ⟨_, _, rfl, becomes (fun branch => branch.putLeaf key _) replaced written_tree⟩

theorem becomes_delete (intact : model.Intact layout) {places : List Nat} {node : NodeId}
    (found : model.descend? model.root places = some node) (key : String) :
    Becomes model (model.delete node key).1
      (model.tree.changeAtPlace places fun branch => branch.deleteChild key) := by
  obtain ⟨above, target, rfl, stored, becomes⟩ := intact.at_place found
  obtain ⟨left, replaced, left_tree⟩ := replaces_delete stored key
  exact becomes (fun branch => branch.deleteChild key) replaced left_tree

theorem content?_of_gone {node : NodeId} (gone : ¬ model.contains node) :
    model.content? node = none := by
  rw [contains, Bool.not_eq_true, Option.isSome_eq_false_iff, Option.isNone_iff_eq_none] at gone
  rw [content?, gone, Option.map_none]

/-- Below a node that is gone nothing is deleted. -/
theorem delete_of_gone {node : NodeId} (gone : ¬ model.contains node) (key : String) :
    model.delete node key = (model, false) := by
  rw [delete, content?_of_gone gone]

end VesselHub.Model
