/-
Module: VesselHub.Proofs.Model.Merge
Purpose: Merging documents into the slots does to the tree what merging does to plain trees.
Main exports: Model.mergeChild_spec, Model.mergeMembers_spec, Model.mergeVessels_spec,
  Model.merge_spec
-/
import VesselHub.Proofs.Model.Write

namespace VesselHub.Model

/-- Items of an array are built out of new nodes, and their trees are the wanted ones. -/
def ItemsBuilt (before after : Model) (array : NodeId) (nodes : List NodeId)
    (trees : List Tree) : Prop :=
  ∃ built, Builds before after (some array) built ∧ built.map Layout.id = nodes ∧
    built.map Layout.tree = trees

private theorem itemsBuilt_leaf {model : Model} (exact : model.FreeExact) (array : NodeId)
    (held : Leaf) : ItemsBuilt model (model.allocate (some array) (.leaf held)).1 array
      [(model.allocate (some array) (.leaf held)).2] [.leaf held] :=
  ⟨_, builds_leaf exact (some array) held, rfl, rfl⟩

theorem ItemsBuilt.append {first second third : Model} {array : NodeId}
    {nodes more : List NodeId} {trees others : List Tree}
    (one : ItemsBuilt first second array nodes trees)
    (two : ItemsBuilt second third array more others) :
    ItemsBuilt first third array (nodes ++ more) (trees ++ others) := by
  obtain ⟨built, builds, rfl, rfl⟩ := one
  obtain ⟨more_built, more_builds, rfl, rfl⟩ := two
  exact ⟨built ++ more_built, builds.append more_builds, by simp, by simp⟩

/-- A new array gets the items that were built below it. -/
theorem builds_filled_array {first second : Model} {parent : Option NodeId}
    {nodes : List NodeId} {trees : List Tree} (exact : first.FreeExact)
    (items : ItemsBuilt (first.allocate parent (.array [])).1 second
      (first.allocate parent (.array [])).2 nodes trees) :
    ∃ filled, Builds first (second.setContent (first.allocate parent (.array [])).2 (.array nodes))
        parent [filled] ∧ filled.id = (first.allocate parent (.array [])).2 ∧
      filled.tree = .array trees := by
  obtain ⟨built, builds, rfl, rfl⟩ := items
  exact ⟨.array _ built, builds_filled exact (.array _ built) rfl builds List.nodup_nil, rfl,
    by rw [Layout.tree, Layout.itemTrees_eq_map]⟩

mutual

theorem mergeChild_spec : ∀ (document : Json) {model : Model} {parent : Option NodeId}
    {layout : Layout} (key : String), model.Stores parent layout →
      ∃ merged, Replaces model (model.mergeChild layout.id key document) parent layout merged ∧
        merged.tree = layout.tree.mergeChild key document
  | .null, _, _, _, key, stored => setLeaf_spec stored key _
  | .bool _, _, _, _, key, stored => setLeaf_spec stored key _
  | .number _, _, _, _, key, stored => setLeaf_spec stored key _
  | .string _, _, _, _, key, stored => setLeaf_spec stored key _
  | .array items, model, parent, layout, key, stored => by
      have made := replaces_makeObject stored
      rw [Layout.asObject_eq] at made
      obtain ⟨filled, builds, id_eq, tree_eq⟩ := builds_filled_array made.stores.freeExact
        (buildItems_spec items
          (builds_array made.stores.freeExact (some layout.id)).change.freeExact _)
      have attached := made.trans (replaces_attach key made.stores builds)
      rw [id_eq] at attached
      exact ⟨_, attached, by rw [Layout.tree_insert, tree_eq]; rfl⟩
  | .object members, model, parent, layout, key, stored => by
      rw [mergeChild, Tree.mergeChild]
      split
      · cases Leaf.decode members with
        | error cause => exact ⟨layout, stored.replaces_refl, rfl⟩
        | ok leaf => exact setLeaf_spec stored key leaf
      · obtain ⟨inner, replaced, tree_eq⟩ :=
          mergeMembers_spec members (stores_ensureObject stored key)
        refine ⟨_, replaces_in_object stored key replaced, ?_⟩
        rw [Layout.tree_insert, tree_eq, Layout.tree_innerEntries]

theorem mergeMembers_spec : ∀ (members : List (String × Json)) {model : Model}
    {parent : Option NodeId} {layout : Layout}, model.Stores parent layout →
      ∃ merged, Replaces model (model.mergeMembers layout.id members) parent layout merged ∧
        merged.tree = layout.tree.mergeMembers members
  | [], _, _, layout, stored => ⟨layout, stored.replaces_refl, rfl⟩
  | (key, value) :: members, model, parent, layout, stored => by
      obtain ⟨first, replaced, first_tree⟩ := mergeChild_spec value key stored
      obtain ⟨rest, others, rest_tree⟩ := mergeMembers_spec members replaced.stores
      rw [replaced.same_id] at others
      rw [first_tree] at rest_tree
      exact ⟨rest, replaced.trans others, rest_tree⟩

theorem buildItem_spec : ∀ (item : Json) {model : Model}, model.FreeExact →
    ∀ array : NodeId, ItemsBuilt model (model.buildItem array item).1 array
      (model.buildItem array item).2.toList (Tree.buildItem item).toList
  | .null, _, exact, array => itemsBuilt_leaf exact array _
  | .bool _, _, exact, array => itemsBuilt_leaf exact array _
  | .number _, _, exact, array => itemsBuilt_leaf exact array _
  | .string _, _, exact, array => itemsBuilt_leaf exact array _
  | .array items, model, exact, array => by
      obtain ⟨filled, builds, id_eq, tree_eq⟩ := builds_filled_array exact
        (buildItems_spec items (builds_array exact (some array)).change.freeExact _)
      exact ⟨[filled], builds, by simp [id_eq]; rfl, by simp [tree_eq, Tree.buildItem]⟩
  | .object members, model, exact, array => by
      rw [buildItem, Tree.buildItem]
      split
      · cases Leaf.decode members with
        | error cause => exact ⟨[], .nil exact _, rfl, rfl⟩
        | ok leaf => exact itemsBuilt_leaf exact array leaf
      · have built := builds_object exact (some array)
        obtain ⟨merged, replaced, tree_eq⟩ := mergeMembers_spec members
          (built.stores (List.mem_singleton.2 rfl))
        refine ⟨[merged], ⟨?_, ?_, ?_⟩, ?_, ?_⟩
        · simpa [Layout.idsOf] using
            built.change.trans (by simpa [Layout.idsOf] using replaced.change)
        · simpa [Layout.idsOf] using replaced.stores.distinct
        · intro layout member
          rw [List.mem_singleton.1 member]
          exact replaced.stores.holds
        · simp [replaced.same_id]
        · simpa [Layout.tree, Layout.childTrees, Tree.empty] using tree_eq

theorem buildItems_spec : ∀ (items : List Json) {model : Model}, model.FreeExact →
    ∀ array : NodeId, ItemsBuilt model (model.buildItems array items).1 array
      (model.buildItems array items).2 (Tree.buildItems items)
  | [], _, exact, _ => ⟨[], .nil exact _, rfl, rfl⟩
  | item :: items, model, exact, array => by
      have first := buildItem_spec item exact array
      obtain ⟨_, builds, _, _⟩ := id first
      exact first.append (buildItems_spec items builds.change.freeExact array)

end

theorem mergeVessels_spec : ∀ (vessels : List (String × Json)) {model : Model}
    {parent : Option NodeId} {layout : Layout}, model.Stores parent layout →
      ∃ merged, Replaces model (model.mergeVessels layout.id vessels) parent layout merged ∧
        merged.tree = Tree.mergeVessels model.resolver layout.tree vessels
  | [], _, _, layout, stored => ⟨layout, stored.replaces_refl, rfl⟩
  | (key, value) :: vessels, model, parent, layout, stored => by
      obtain ⟨first, replaced, first_tree⟩ :=
        mergeChild_spec value (model.resolver.resolveKey key) stored
      obtain ⟨rest, others, rest_tree⟩ := mergeVessels_spec vessels replaced.stores
      rw [replaced.same_id] at others
      rw [first_tree, replaced.change.resolver] at rest_tree
      exact ⟨rest, replaced.trans others, rest_tree⟩

/-- Merging the vessels of a document below the key `vessels` of the root. -/
theorem mergeVesselsKey_spec {model : Model} {parent : Option NodeId} {layout : Layout}
    (stored : model.Stores parent layout) (key : String) (vessels : List (String × Json)) :
    ∃ merged, Replaces model
        ((model.ensureObject layout.id key).1.mergeVessels (model.ensureObject layout.id key).2
          vessels) parent layout merged ∧
      merged.tree = layout.tree.setChild key
        (Tree.mergeVessels model.resolver (layout.tree.objectAt key) vessels) := by
  obtain ⟨inner, replaced, tree_eq⟩ := mergeVessels_spec vessels (stores_ensureObject stored key)
  refine ⟨_, replaces_in_object stored key replaced, ?_⟩
  rw [Layout.tree_insert, tree_eq, Layout.tree_innerEntries,
    (replaces_ensureObject stored key).change.resolver]

theorem mergeTop_spec (members : List (String × Json)) {model : Model} {parent : Option NodeId}
    {layout : Layout} (stored : model.Stores parent layout) (at_root : layout.id = model.root) :
    ∃ merged, Replaces model (model.mergeTop members) parent layout merged ∧
      merged.tree = Tree.mergeTop model.resolver layout.tree members := by
  induction members generalizing model layout with
  | nil => exact ⟨layout, stored.replaces_refl, rfl⟩
  | cons member members induction_step =>
      obtain ⟨key, value⟩ := member
      -- One member, whether or not it holds the vessels.
      have one : ∃ after merged, Replaces model after parent layout merged ∧
          model.mergeTop ((key, value) :: members) = after.mergeTop members ∧
          Tree.mergeTop model.resolver layout.tree ((key, value) :: members) =
            Tree.mergeTop model.resolver merged.tree members := by
        have plain := mergeChild_spec value key stored
        rw [at_root] at plain
        obtain ⟨merged, replaced, tree_eq⟩ := plain
        cases value with
        | object vessels =>
            by_cases is_vessels : key = vesselsKey
            · have vessel_wise := mergeVesselsKey_spec stored key vessels
              rw [at_root] at vessel_wise
              obtain ⟨by_vessel, by_vessel_replaced, by_vessel_tree⟩ := vessel_wise
              refine ⟨_, by_vessel, by_vessel_replaced, ?_, ?_⟩
              · simp only [mergeTop, if_pos is_vessels]
              · simp only [Tree.mergeTop, if_pos is_vessels, by_vessel_tree]
            · refine ⟨_, merged, replaced, ?_, ?_⟩
              · simp only [mergeTop, if_neg is_vessels]
              · simp only [Tree.mergeTop, if_neg is_vessels, tree_eq]
        | null => exact ⟨_, merged, replaced, rfl, by rw [tree_eq]; rfl⟩
        | bool flag => exact ⟨_, merged, replaced, rfl, by rw [tree_eq]; rfl⟩
        | number number => exact ⟨_, merged, replaced, rfl, by rw [tree_eq]; rfl⟩
        | string text => exact ⟨_, merged, replaced, rfl, by rw [tree_eq]; rfl⟩
        | array items => exact ⟨_, merged, replaced, rfl, by rw [tree_eq]; rfl⟩
      obtain ⟨after, merged, replaced, model_eq, tree_eq⟩ := one
      obtain ⟨rest, others, rest_tree⟩ := induction_step replaced.stores
        (by rw [replaced.same_id, replaced.change.root, at_root])
      refine ⟨rest, ?_, ?_⟩
      · rw [model_eq]
        exact replaced.trans others
      · rw [tree_eq, rest_tree, replaced.change.resolver]

theorem merge_spec {model : Model} {parent : Option NodeId} {layout : Layout}
    (stored : model.Stores parent layout) (at_root : layout.id = model.root) (document : Json) :
    ∃ merged, Replaces model (model.merge document) parent layout merged ∧
      merged.tree = Tree.merge model.resolver layout.tree document := by
  cases document with
  | object members => exact mergeTop_spec members stored at_root
  | null => exact ⟨layout, stored.replaces_refl, rfl⟩
  | bool flag => exact ⟨layout, stored.replaces_refl, rfl⟩
  | number number => exact ⟨layout, stored.replaces_refl, rfl⟩
  | string text => exact ⟨layout, stored.replaces_refl, rfl⟩
  | array items => exact ⟨layout, stored.replaces_refl, rfl⟩

end VesselHub.Model
