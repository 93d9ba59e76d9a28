/-
Module: VesselHub.Proofs.Model.Run
Purpose: Runs of operations on the model, with any arguments. Every one of them leaves an intact
  model.
Main exports: Operation, Model.perform, Model.run, Model.perform_intact, Model.run_intact
-/
import VesselHub.Proofs.Model.Apply
import VesselHub.Proofs.Model.Copy

namespace VesselHub

/-- What can be done to a model. Copying goes on with the copy. -/
inductive Operation where
  | addNode (start : NodeId) (path : String)
  | addPath (path : String)
  | put (node : NodeId) (key : String) (value : Json) (source : String) (timestamp : Instant)
  | merge (document : Json)
  | mergeAt (path key : String) (document : Json)
  | mergeAtFull (path : String) (document : Json)
  | delete (node : NodeId) (key : String)
  | deleteAt (path key : String)
  | apply (now : Instant) (message : Json)
  | applyDelta (now : Instant) (delta : Delta)
  | duplicate
  | safe
  | safeSubtree (node : NodeId)

namespace Model

/-- The model after an operation. One that is refused changes nothing. -/
def perform (model : Model) : Operation → Model
  | .addNode start path => ((model.addNode? start path).map Prod.fst).getD model
  | .addPath path => (model.addPath path).1
  | .put node key value source timestamp =>
      ((model.put? node key value source timestamp).map Prod.fst).getD model
  | .merge document => model.merge document
  | .mergeAt path key document => model.mergeAt path key document
  | .mergeAtFull path document => model.mergeAtFull path document
  | .delete node key => (model.delete node key).1
  | .deleteAt path key => (model.deleteAt path key).1
  | .apply now message =>
      match model.apply now message with
      | .ok (after, _) => after
      | .error _ => model
  | .applyDelta now delta => (model.applyDelta now delta).1
  | .duplicate => model.duplicate
  | .safe => model.safe
  | .safeSubtree node => model.safeSubtree node

/-- The model of a hub for a local vessel after operations. -/
def run (id : String) (operations : List Operation) : Model :=
  operations.foldl perform (ofSelf id)

/-- The model of a hub starts as an empty object with the branch of the local vessel. -/
theorem becomes_ofSelf (id : String) : ∃ empty : Model, Becomes empty (ofSelf id)
    (Tree.addPath (.ofText id) .empty (Resolver.ofText id).selfContext) ∧
      empty.resolver = .ofText id := by
  have empty := builds_object (freeExact_unplanted (.ofText id)) none
  obtain ⟨layout, intact, tree_eq, resolver_eq⟩ := intact_of_treeBuilt ⟨_, empty, rfl, rfl⟩
  have becomes := becomes_addPath intact (Resolver.ofText id).selfContext
  rw [intact.tree_eq, tree_eq, resolver_eq] at becomes
  exact ⟨_, becomes, resolver_eq⟩

theorem intact_ofSelf (id : String) : ∃ layout, (ofSelf id).Intact layout := by
  obtain ⟨empty, becomes, -⟩ := becomes_ofSelf id
  exact becomes.intact

theorem tree_ofSelf_eq_addPath (id : String) :
    (ofSelf id).tree = .addPath (.ofText id) .empty (Resolver.ofText id).selfContext := by
  obtain ⟨empty, becomes, -⟩ := becomes_ofSelf id
  exact becomes.tree_eq

theorem resolver_ofSelf (id : String) : (ofSelf id).resolver = .ofText id := by
  obtain ⟨empty, becomes, resolver_eq⟩ := becomes_ofSelf id
  exact becomes.resolver.trans resolver_eq

/-- Below a node that is gone there is nothing. -/
theorem treeWithin_of_gone {model : Model} {node : NodeId} (gone : ¬ model.contains node)
    (depth : Nat) : model.treeWithin depth node = .empty := by
  cases depth with
  | zero => rfl
  | succ depth => rw [treeWithin, content?_of_gone gone]

theorem treeOf_of_gone {model : Model} {node : NodeId} (gone : ¬ model.contains node) :
    model.treeOf node = .empty :=
  treeWithin_of_gone gone model.slots.size

/-- The leaves that are listed below a node are those of the tree there. -/
theorem leaves_eq_treeOf (model : Model) (node : NodeId) :
    model.leaves node = (model.treeOf node).leaves := by
  rw [leaves, treeAt?]
  by_cases live : model.contains node
  · rw [if_pos live]
  · rw [if_neg live, treeOf_of_gone live]
    rfl

/-- What is read off below a node has no key twice. -/
theorem distinctKeys_treeOf {model : Model} {layout : Layout} (intact : model.Intact layout)
    (node : NodeId) : (model.treeOf node).DistinctKeys := by
  by_cases live : model.contains node
  · obtain ⟨places, found⟩ := intact.exists_place live
    obtain ⟨above, target, rfl, stored, -⟩ := intact.at_place found
    rw [stored.tree_eq]
    exact stored.holds.distinctKeys_tree
  · rw [treeOf_of_gone live]
    exact ⟨List.nodup_nil, trivial⟩

/-- One operation leaves an intact model, whatever its arguments are. -/
theorem perform_intact {model : Model} {layout : Layout} (intact : model.Intact layout)
    (operation : Operation) : ∃ after, (model.perform operation).Intact after := by
  cases operation with
  | addNode start path =>
      by_cases live : model.contains start
      · obtain ⟨places, found⟩ := intact.exists_place live
        obtain ⟨after, node, added, becomes⟩ := becomes_addNode intact found path
        rw [perform, added]
        exact becomes.intact
      · rw [perform, addNode?, if_neg live]
        exact ⟨layout, intact⟩
  | addPath path => exact (becomes_addPath intact path).intact
  | put node key value source timestamp =>
      by_cases live : model.contains node
      · obtain ⟨places, found⟩ := intact.exists_place live
        obtain ⟨after, child, put_eq, becomes⟩ :=
          becomes_put intact found key value source timestamp
        rw [perform, put_eq]
        exact becomes.intact
      · rw [perform, put?, if_neg live]
        exact ⟨layout, intact⟩
  | merge document => exact (becomes_merge intact document).intact
  | mergeAt path key document => exact (becomes_mergeAt intact path key document).intact
  | mergeAtFull path document => exact (becomes_mergeAtFull intact path document).intact
  | delete node key =>
      by_cases live : model.contains node
      · obtain ⟨places, found⟩ := intact.exists_place live
        exact (becomes_delete intact found key).intact
      · rw [perform, delete_of_gone live]
        exact ⟨layout, intact⟩
  | deleteAt path key => exact (becomes_deleteAt intact path key).intact
  | apply now message =>
      rw [perform]
      split
      · rename_i after report applied
        obtain ⟨tree, becomes⟩ := becomes_apply intact now message applied
        exact becomes.intact
      · exact ⟨layout, intact⟩
  | applyDelta now delta =>
      obtain ⟨writes, -, becomes, -⟩ := applyDelta_spec intact now delta
      exact becomes.intact
  | duplicate =>
      obtain ⟨copy, copy_intact, -, -⟩ :=
        intact_ofTree model.resolver (distinctKeys_treeOf intact model.root)
      exact ⟨copy, copy_intact⟩
  | safe =>
      obtain ⟨copy, copy_intact, -, -⟩ := intact_ofTree model.resolver
        (Tree.distinctKeys_safe (distinctKeys_treeOf intact model.root))
      exact ⟨copy, copy_intact⟩
  | safeSubtree node =>
      obtain ⟨copy, copy_intact, -, -⟩ := intact_ofTree model.resolver
        (Tree.distinctKeys_safe (distinctKeys_treeOf intact node))
      exact ⟨copy, copy_intact⟩

/-- Every run leaves an intact model. -/
theorem run_intact (id : String) (operations : List Operation) :
    ∃ layout, (run id operations).Intact layout := by
  have from_any : ∀ (operations : List Operation) (model : Model),
      (∃ layout, model.Intact layout) →
        ∃ layout, (operations.foldl perform model).Intact layout := by
    intro operations
    induction operations with
    | nil => exact fun _ intact => intact
    | cons operation operations induction_step =>
        rintro model ⟨layout, intact⟩
        exact induction_step _ (perform_intact intact operation)
  exact from_any operations _ (intact_ofSelf id)

end Model

end VesselHub
