/-
Module: VesselHub.Proofs.Model.Rebuild
Purpose: Merging the document of a model into a new one rebuilds the model, with the branch of the
  local vessel added if it was not there.
Main exports: Tree.IsObject, Operation.keepsRoot, Model.run_isObject, Model.merge_document
-/
import Mathlib.Data.List.Induction
import VesselHub.Proofs.Model.Alias
import VesselHub.Proofs.Model.Message
import VesselHub.Proofs.Model.Noninterference
import VesselHub.Proofs.Tree.Rebuild

namespace VesselHub

/-! ### The root stays an object -/

namespace Tree

/-- The tree is an object. -/
def IsObject (tree : Tree) : Prop :=
  ∃ children, tree = .object children

variable {tree : Tree}

theorem isObject_setChild (tree : Tree) (key : String) (child : Tree) :
    (tree.setChild key child).IsObject :=
  ⟨_, rfl⟩

theorem IsObject.changeAt (is_object : tree.IsObject) {change : Tree → Tree}
    (keeps : ∀ branch : Tree, branch.IsObject → (change branch).IsObject) (keys : List String) :
    (tree.changeAt keys change).IsObject := by
  cases keys with
  | nil => exact keeps tree is_object
  | cons key keys => exact isObject_setChild tree key _

private theorem isObject_changeAt_of_ne_nil {keys : List String} (nonempty : keys ≠ [])
    (tree : Tree) (change : Tree → Tree) : (tree.changeAt keys change).IsObject := by
  cases keys with
  | nil => exact absurd rfl nonempty
  | cons key keys => exact isObject_setChild tree key _

theorem IsObject.changeAtPlace (is_object : tree.IsObject) {change : Tree → Tree}
    (keeps : ∀ branch : Tree, branch.IsObject → (change branch).IsObject) (places : List Nat) :
    (tree.changeAtPlace places change).IsObject := by
  cases places with
  | nil => exact keeps tree is_object
  | cons place places =>
      obtain ⟨children, rfl⟩ := is_object
      exact ⟨_, rfl⟩

theorem IsObject.mergeChild (is_object : tree.IsObject) (key : String) (document : Json) :
    (tree.mergeChild key document).IsObject := by
  obtain ⟨child, merged_eq⟩ := mergeChild_eq tree key document
  rw [merged_eq]
  split
  · exact isObject_setChild tree key child
  · exact is_object

theorem IsObject.mergeTop {resolver : Resolver} (members : List (String × Json)) :
    ∀ {tree : Tree}, tree.IsObject → (mergeTop resolver tree members).IsObject := by
  induction members with
  | nil => exact id
  | cons member members induction_step =>
      intro tree is_object
      obtain ⟨key, value⟩ := member
      cases value with
      | object vessels =>
          rw [Tree.mergeTop]
          apply induction_step
          split
          · exact isObject_setChild tree key _
          · exact is_object.mergeChild key _
      | null | bool | number | string | array =>
          exact induction_step (is_object.mergeChild key _)

theorem IsObject.merge {resolver : Resolver} (is_object : tree.IsObject) (document : Json) :
    (tree.merge resolver document).IsObject := by
  cases document with
  | object members => exact is_object.mergeTop members
  | null | bool | number | string | array => exact is_object

theorem IsObject.mergeAt {resolver : Resolver} (is_object : tree.IsObject) (path key : String)
    (document : Json) : (tree.mergeAt resolver path key document).IsObject :=
  is_object.changeAt (fun _ below => below.mergeChild key document) _

theorem IsObject.mergeAtFull {resolver : Resolver} (is_object : tree.IsObject) (path : String)
    (document : Json) : (tree.mergeAtFull resolver path document).IsObject := by
  rw [Tree.mergeAtFull]
  cases (resolver.resolve path).last? with
  | some key => exact is_object.mergeAt _ key document
  | none => exact is_object.merge document

theorem IsObject.deleteChild (is_object : tree.IsObject) (key : String) :
    (tree.deleteChild key).IsObject := by
  obtain ⟨children, rfl⟩ := is_object
  exact ⟨_, rfl⟩

theorem IsObject.deleteAt {resolver : Resolver} (is_object : tree.IsObject) (path key : String) :
    (tree.deleteAt resolver path key).IsObject := by
  rw [Tree.deleteAt]
  cases (resolver.resolve path).segments with
  | nil => exact is_object.deleteChild key
  | cons first rest =>
      obtain ⟨children, rfl⟩ := is_object
      exact ⟨_, rfl⟩

theorem IsObject.writeBatches {resolver : Resolver} {keys : List String} {batches : List Batch}
    {writes : List (List (List String × Leaf))}
    (written : List.Forall₂ (fun batch => List.Forall₂
      (Batch.Writes resolver keys batch.source) batch.accepted) batches writes) :
    ∀ {tree : Tree}, tree.IsObject → (tree.writeBatches keys writes).IsObject := by
  have all {source : String} {values : List AcceptedValue} {writes : List (List String × Leaf)}
      (written : List.Forall₂ (Batch.Writes resolver keys source) values writes) :
      ∀ {tree : Tree}, tree.IsObject → (tree.writeAll writes).IsObject := by
    induction written with
    | nil => exact id
    | @cons value write values writes first rest induction_step =>
        intro tree is_object
        refine induction_step (isObject_changeAt_of_ne_nil ?_ _ _)
        rw [first.path]
        simp
  induction written with
  | nil => exact id
  | @cons batch first batches writes written rest induction_step =>
      intro tree is_object
      exact induction_step (all written (is_object.changeAt (fun _ below => below) keys))

end Tree

/-- Whether an operation goes on with the same root. A copy of a branch starts at the branch. -/
def Operation.keepsRoot : Operation → Bool
  | .safeSubtree _ => false
  | _ => true

namespace Model

variable {model : Model} {layout : Layout}

/-- A model has the local vessel of another, and its root is an object if that of the other is. -/
structure Succeeds (before after : Model) : Prop where
  resolver : after.resolver = before.resolver
  is_object : before.tree.IsObject → after.tree.IsObject

theorem Becomes.succeeds {after : Model} {tree : Tree} (becomes : Becomes model after tree)
    (keeps : model.tree.IsObject → tree.IsObject) : model.Succeeds after :=
  ⟨becomes.resolver, fun is_object => becomes.tree_eq ▸ keeps is_object⟩

private theorem succeeds_refl (model : Model) : model.Succeeds model :=
  ⟨rfl, id⟩

theorem perform_succeeds (intact : model.Intact layout) {operation : Operation}
    (keeps : operation.keepsRoot = true) : model.Succeeds (model.perform operation) := by
  cases operation with
  | addNode start path =>
      by_cases live : model.contains start
      · obtain ⟨places, found⟩ := intact.exists_place live
        obtain ⟨after, node, added, becomes⟩ := becomes_addNode intact found path
        rw [perform, added]
        exact becomes.succeeds fun is_object =>
          is_object.changeAtPlace (fun _ branch => branch.changeAt (fun _ below => below) _) _
      · rw [perform, addNode?, if_neg live]
        exact succeeds_refl model
  | addPath path =>
      exact (becomes_addPath intact path).succeeds fun is_object =>
        is_object.changeAt (fun _ below => below) _
  | put node key value source timestamp =>
      by_cases live : model.contains node
      · obtain ⟨places, found⟩ := intact.exists_place live
        obtain ⟨after, child, put_eq, becomes⟩ :=
          becomes_put intact found key value source timestamp
        rw [perform, put_eq]
        exact becomes.succeeds fun is_object =>
          is_object.changeAtPlace (fun branch _ => Tree.isObject_setChild branch key _) _
      · rw [perform, put?, if_neg live]
        exact succeeds_refl model
  | merge document =>
      exact (becomes_merge intact document).succeeds fun is_object => is_object.merge document
  | mergeAt path key document =>
      exact (becomes_mergeAt intact path key document).succeeds fun is_object =>
        is_object.mergeAt path key document
  | mergeAtFull path document =>
      exact (becomes_mergeAtFull intact path document).succeeds fun is_object =>
        is_object.mergeAtFull path document
  | delete node key =>
      by_cases live : model.contains node
      · obtain ⟨places, found⟩ := intact.exists_place live
        exact (becomes_delete intact found key).succeeds fun is_object =>
          is_object.changeAtPlace (fun _ branch => branch.deleteChild key) _
      · rw [perform, delete_of_gone live]
        exact succeeds_refl model
  | deleteAt path key =>
      exact (becomes_deleteAt intact path key).succeeds fun is_object =>
        is_object.deleteAt path key
  | apply now message =>
      obtain ⟨tree, becomes, made⟩ := becomes_messageTree intact now message
      refine becomes.succeeds fun is_object => ?_
      cases made with
      | document _ => exact is_object.merge message
      | delta _ written => exact is_object.writeBatches written
      | refused => exact is_object
  | applyDelta now delta =>
      obtain ⟨writes, written, becomes, -⟩ := applyDelta_spec intact now delta
      exact becomes.succeeds fun is_object => is_object.writeBatches written
  | duplicate =>
      obtain ⟨copy, copy_intact, copy_tree, resolver⟩ :=
        intact_ofTree model.resolver (distinctKeys_treeOf intact model.root)
      have same : model.duplicate.tree = model.tree := copy_intact.tree_eq.trans copy_tree
      refine ⟨resolver, fun is_object => ?_⟩
      rw [perform, same]
      exact is_object
  | safe =>
      obtain ⟨-, -, copy_tree, resolver⟩ := safe_spec intact
      refine ⟨resolver, ?_⟩
      rintro ⟨children, tree_eq⟩
      rw [perform, copy_tree, tree_eq]
      exact ⟨_, rfl⟩
  | safeSubtree node => cases keeps

theorem resolver_perform (intact : model.Intact layout) (operation : Operation) :
    (model.perform operation).resolver = model.resolver := by
  cases keeps : operation.keepsRoot with
  | true => exact (perform_succeeds intact keeps).resolver
  | false =>
      cases operation with
      | safeSubtree node =>
          obtain ⟨-, -, -, resolver⟩ := intact_ofTree model.resolver
            (Tree.distinctKeys_safe (distinctKeys_treeOf intact node))
          rw [perform, safeSubtree]
          exact resolver
      | _ => cases keeps

theorem resolver_run (id : String) (operations : List Operation) :
    (run id operations).resolver = .ofText id := by
  induction operations using List.reverseRecOn with
  | nil => rw [run, List.foldl_nil, resolver_ofSelf]
  | append_singleton operations operation induction_step =>
      obtain ⟨layout, intact⟩ := run_intact id operations
      rw [run, List.foldl_concat, ← run, resolver_perform intact, induction_step]

/-- The model of a hub starts with the empty branch of the local vessel. -/
theorem tree_ofSelf {id : String} (valid : (Resolver.ofText id).IsValid) :
    (ofSelf id).tree = .ofSelf (.ofText id) := by
  rw [tree_ofSelf_eq_addPath, Tree.addPath_selfContext valid]
  rfl

theorem run_isObject {id : String} (valid : (Resolver.ofText id).IsValid)
    {operations : List Operation}
    (keeps : ∀ operation ∈ operations, operation.keepsRoot = true) :
    (run id operations).tree.IsObject := by
  induction operations using List.reverseRecOn with
  | nil =>
      rw [run, List.foldl_nil, tree_ofSelf valid]
      exact ⟨_, rfl⟩
  | append_singleton operations operation induction_step =>
      rw [List.forall_mem_append, List.forall_mem_singleton] at keeps
      obtain ⟨layout, intact⟩ := run_intact id operations
      rw [run, List.foldl_concat, ← run]
      exact (perform_succeeds intact keeps.2).is_object (induction_step keeps.1)

/-- The branch of the local vessel is found in the model if it is found in the tree. -/
theorem isSome_selfNode? (intact : model.Intact layout) :
    model.selfNode?.isSome =
      (model.tree.at? model.resolver model.resolver.selfContext).isSome := by
  rw [selfNode?, nodeAt?, Tree.at?, intact.tree_eq, Layout.tree_walk?, ← intact.at_root,
    walk?_of_stores intact.stores, Option.isSome_map, Option.isSome_map]

/-- Merging the document of a model into a new one for the same local vessel rebuilds the document,
with the branch of the local vessel added if it was not there. Members may come in another order.
The root of the model is an object unless the model is a copy of a branch. -/
theorem merge_document {config : Config} (valid : config.validate = .ok ())
    (operations : List Operation)
    (rooted : (∀ operation ∈ operations, operation.keepsRoot = true) ∨
      (run config.selfId operations).tree.IsObject)
    (portable : (run config.selfId operations).tree.IsPortable) :
    let model := run config.selfId operations
    ((ofSelf config.selfId).merge model.document).document.Reordered
      (if model.selfNode?.isSome then model.document
        else (model.addPath model.resolver.selfContext).1.document) := by
  intro model
  have resolver_valid := config.isValid_resolver valid
  have resolver_eq : model.resolver = config.resolver := resolver_run config.selfId operations
  obtain ⟨layout, intact⟩ := run_intact config.selfId operations
  obtain ⟨start, start_intact⟩ := intact_ofSelf config.selfId
  obtain ⟨children, tree_eq⟩ : model.tree.IsObject :=
    rooted.elim (run_isObject resolver_valid) id
  have distinct : model.tree.DistinctKeys := distinctKeys_treeOf intact model.root
  have whole_portable : model.tree.IsPortable := portable
  -- On both sides the document is that of a tree.
  have merged : ((ofSelf config.selfId).merge model.document).document =
      ((Tree.ofSelf config.resolver).merge config.resolver model.tree.encode).encode := by
    rw [document, (becomes_merge start_intact model.document).tree_eq, tree_ofSelf resolver_valid,
      resolver_ofSelf]
    rfl
  have wanted : (if model.selfNode?.isSome then model.document
      else (model.addPath model.resolver.selfContext).1.document) =
      (model.tree.withSelf config.resolver).encode := by
    rw [isSome_selfNode? intact, Tree.withSelf, resolver_eq]
    split
    · rfl
    · rw [document, (becomes_addPath intact _).tree_eq, resolver_eq]
  rw [tree_eq] at distinct whole_portable
  rw [merged, wanted, tree_eq]
  exact Tree.reordered_rebuilt resolver_valid distinct whole_portable

/-- A local vessel with a leap second, leaves that hold what looks like a leaf, nested arrays and
an empty branch, beside another vessel. -/
def logbook : List Operation :=
  [.merge (.object [
      ("version", .string "1.0"),
      ("vessels", .object [
        ("gale", .object [("name", .string "Gale")]),
        ("self", .object [
          ("log", .object [
            ("value", .object [("value", .object [("value", .null)])]),
            ("timestamp", .string "2016-12-31T23:59:60.5Z"),
            ("source", .string "pilot")]),
          ("routes", .array [.object [("value", .ofNat 1)], .array [], .object [("legs",
            .array [.null])]]),
          ("notes", .object [])])])]),
    .apply ⟨0, 1500000⟩ (.object [
      ("context", .string "vessels.gull"),
      ("values", .array [.object [("path", .string "speed"), ("value", .ofNat 3)]])]),
    .deleteAt "vessels.gale" "name"]

/-- The logbook is portable, and its document merged into a new model gives the same document
again, up to the order of members. -/
theorem logbook_rebuilt :
    gullSettings.validate = .ok () ∧ (run "gull" logbook).tree.IsPortable ∧
      ((ofSelf "gull").merge (run "gull" logbook).document).document.Reordered
        (run "gull" logbook).document := by
  have valid : gullSettings.validate = .ok () := rfl
  have portable : (run "gull" logbook).tree.IsPortable :=
    Tree.isPortable_of_looksPortable (by decide +kernel)
  have present : (run "gull" logbook).selfNode?.isSome = true := by decide +kernel
  have rebuilt : ((ofSelf "gull").merge (run "gull" logbook).document).document.Reordered
      (if (run "gull" logbook).selfNode?.isSome then (run "gull" logbook).document
        else ((run "gull" logbook).addPath (run "gull" logbook).resolver.selfContext).1.document) :=
    merge_document valid logbook (.inl (by decide)) portable
  rw [if_pos present] at rebuilt
  exact ⟨valid, portable, rebuilt⟩

end Model

end VesselHub
