/-
Module: VesselHub.Proofs.Model.Copy
Purpose: Planting a tree as a model of its own. The planted model is intact and holds the tree it
  was planted from, as long as no object of the tree has a key twice.
Main exports: Model.plant_spec, Model.intact_of_treeBuilt, Model.intact_ofTree
-/
import VesselHub.Proofs.Model.Intact
import VesselHub.Proofs.Tree.Keys

namespace VesselHub

namespace Model

/-- A held layout has no key twice. -/
theorem Holds.distinctKeys_tree {model : Model} {parent : Option NodeId} {layout : Layout}
    (holds : model.Holds parent layout) : layout.tree.DistinctKeys := by
  induction holds with
  | @intro parent layout here distinctKeys _ induction_step =>
      cases layout with
      | leaf id held => trivial
      | object id children =>
          refine ⟨?_, (Tree.everyChild_iff _).2 ?_⟩
          · rw [Layout.childTrees_eq_map, Entries.keys_map_values]
            simpa [Layout.content, Content.keys, Entries.keys_map_values] using distinctKeys
          · intro child member
            rw [Layout.childTrees_eq_map] at member
            simp only [Entries.values, List.map_map, List.mem_map] at member
            obtain ⟨entry, entry_mem, rfl⟩ := member
            exact induction_step entry.2 (List.mem_map_of_mem entry_mem)
      | array id items =>
          apply (Tree.everyItem_iff _).2
          intro item member
          rw [Layout.itemTrees_eq_map] at member
          obtain ⟨kid, is_kid, rfl⟩ := List.mem_map.1 member
          exact induction_step kid is_kid

/-- Children of an object are built out of new nodes, and their trees are the wanted ones. -/
def EntriesBuilt (before after : Model) (object : NodeId) (nodes : List (String × NodeId))
    (trees : List (String × Tree)) : Prop :=
  ∃ built : List (String × Layout), Builds before after (some object) (Entries.values built) ∧
    built.map (fun entry => (entry.1, entry.2.id)) = nodes ∧ Layout.childTrees built = trees

/-- A tree is built out of new nodes. -/
def TreeBuilt (before after : Model) (parent : Option NodeId) (node : NodeId) (tree : Tree) :
    Prop :=
  ∃ built, Builds before after parent [built] ∧ built.id = node ∧ built.tree = tree

/-- A new object gets the children that were built below it. -/
theorem treeBuilt_object {first second : Model} {parent : Option NodeId}
    {nodes : List (String × NodeId)} {children : List (String × Tree)} (exact : first.FreeExact)
    (distinct : (Entries.keys children).Nodup)
    (entries : EntriesBuilt (first.allocate parent (.object [])).1 second
      (first.allocate parent (.object [])).2 nodes children) :
    TreeBuilt first (second.setContent (first.allocate parent (.object [])).2 (.object nodes))
      parent (first.allocate parent (.object [])).2 (.object children) := by
  obtain ⟨built, builds, rfl, rfl⟩ := entries
  refine ⟨.object _ built, builds_filled exact (.object _ built) rfl builds ?_, rfl, rfl⟩
  rw [Layout.childTrees_eq_map, Entries.keys_map_values] at distinct
  simpa [Layout.content, Content.keys, Entries.keys_map_values] using distinct

mutual

theorem plant_spec : ∀ (tree : Tree) {model : Model} (parent : NodeId), model.FreeExact →
    tree.DistinctKeys → TreeBuilt model (model.plant parent tree).1 (some parent)
      (model.plant parent tree).2 tree
  | .leaf held, _, parent, exact, _ => ⟨_, builds_leaf exact (some parent) held, rfl, rfl⟩
  | .object children, _, _, exact, ⟨distinct, below⟩ =>
      treeBuilt_object exact distinct
        (plantChildren_spec children _ (freeExact_allocate exact _ _) below)
  | .array items, _, _, exact, below =>
      builds_filled_array exact (plantItems_spec items _ (freeExact_allocate exact _ _) below)

theorem plantChildren_spec : ∀ (children : List (String × Tree)) {model : Model}
    (parent : NodeId), model.FreeExact → Tree.EveryChild List.Nodup children →
      EntriesBuilt model (model.plantChildren parent children).1 parent
        (model.plantChildren parent children).2 children
  | [], _, _, exact, _ => ⟨[], .nil exact _, rfl, rfl⟩
  | (key, child) :: children, model, parent, exact, ⟨first, others⟩ => by
      obtain ⟨planted, builds, planted_id, planted_tree⟩ := plant_spec child parent exact first
      obtain ⟨built, rest, built_ids, built_trees⟩ :=
        plantChildren_spec children parent builds.change.freeExact others
      refine ⟨(key, planted) :: built, builds.append rest, ?_, ?_⟩
      · rw [List.map_cons, built_ids, planted_id]
        rfl
      · rw [Layout.childTrees, built_trees, planted_tree]

theorem plantItems_spec : ∀ (items : List Tree) {model : Model} (parent : NodeId),
    model.FreeExact → Tree.EveryItem List.Nodup items →
      ItemsBuilt model (model.plantItems parent items).1 parent
        (model.plantItems parent items).2 items
  | [], _, _, exact, _ => ⟨[], .nil exact _, rfl, rfl⟩
  | item :: items, model, parent, exact, ⟨first, others⟩ => by
      obtain ⟨planted, builds, planted_id, planted_tree⟩ := plant_spec item parent exact first
      have one : ItemsBuilt model (model.plant parent item).1 parent
          [(model.plant parent item).2] [item] :=
        ⟨[planted], builds, by rw [List.map_singleton, planted_id],
          by rw [List.map_singleton, planted_tree]⟩
      exact one.append (plantItems_spec items parent builds.change.freeExact others)

end

/-! ### Whole models -/

/-- The model before it has a root. -/
def unplanted (resolver : Resolver) : Model where
  slots := #[]
  free := []
  root := { index := 0, generation := 0 }
  resolver := resolver

theorem freeExact_unplanted (resolver : Resolver) : (unplanted resolver).FreeExact where
  distinct := List.nodup_nil
  mem_iff index := by simp [unplanted]

/-- A tree that is built where nothing was is a whole model. -/
theorem intact_of_treeBuilt {after : Model} {resolver : Resolver} {content : Content} {tree : Tree}
    (built : TreeBuilt (unplanted resolver) after none
      ((unplanted resolver).allocate none content).2 tree) :
    ∃ layout, after.Intact layout ∧ layout.tree = tree ∧ after.resolver = resolver := by
  obtain ⟨layout, builds, layout_id, layout_tree⟩ := built
  have ids_eq : Layout.idsOf [layout] = layout.ids := by simp [Layout.idsOf]
  refine ⟨layout, ⟨builds.stores (List.mem_singleton.2 rfl), ?_, ?_⟩, layout_tree,
    builds.change.resolver⟩
  · rw [layout_id, builds.change.root]
    rfl
  · intro id live
    by_contra absent
    have outside := builds.change.frame id (by simp) (ids_eq ▸ absent)
    rw [contains, outside] at live
    simp [unplanted, node?] at live

/-- A planted model is intact and holds the tree that was planted. -/
theorem intact_ofTree (resolver : Resolver) {tree : Tree} (distinct : tree.DistinctKeys) :
    ∃ layout, (ofTree resolver tree).Intact layout ∧ layout.tree = tree ∧
      (ofTree resolver tree).resolver = resolver := by
  have exact := freeExact_unplanted resolver
  cases tree with
  | leaf held => exact intact_of_treeBuilt ⟨_, builds_leaf exact none held, rfl, rfl⟩
  | object children =>
      exact intact_of_treeBuilt (treeBuilt_object exact distinct.1
        (plantChildren_spec children _ (freeExact_allocate exact _ _) distinct.2))
  | array items =>
      exact intact_of_treeBuilt (builds_filled_array exact
        (plantItems_spec items _ (freeExact_allocate exact _ _) distinct))

end Model

end VesselHub
