/-
Module: VesselHub.Proofs.Model.WellFormed
Purpose: What an intact model is like node by node: a tree of live nodes under the root, and a free
  list of exactly the other slots. The counts of nodes and leaves are those of the tree.
Main exports: Model.WellFormed, Model.Below, Model.Holds.mem_below_iff, Model.Intact.wellFormed,
  Model.run_wellFormed
-/
import Mathlib.Data.Set.Card
import Mathlib.Logic.Relation
import VesselHub.Proofs.Model.Run

namespace VesselHub

namespace Layout

theorem nodup_map_id {layouts : List Layout} (distinct : (idsOf layouts).Nodup) :
    (layouts.map id).Nodup := by
  induction layouts with
  | nil => exact List.nodup_nil
  | cons layout layouts induction_step =>
      rw [idsOf_cons, List.nodup_append] at distinct
      obtain ⟨distinct_others, _, apart⟩ := distinct
      rw [List.map_cons, List.nodup_cons]
      refine ⟨fun repeated => ?_, induction_step distinct_others⟩
      obtain ⟨other, is_other, same_id⟩ := List.mem_map.1 repeated
      have in_others : layout.id ∈ idsOf layouts :=
        mem_idsOf.2 ⟨other, is_other, same_id ▸ other.id_mem_ids⟩
      exact apart _ in_others _ layout.id_mem_ids rfl

/-- The topmost node lists each layout right below once. -/
private theorem count_children {layout kid : Layout} (distinct : layout.ids.Nodup)
    (is_kid : kid ∈ layout.kids) : layout.content.children.count kid.id = 1 := by
  rw [ids_eq, List.nodup_cons] at distinct
  rw [children_content]
  exact List.count_eq_one_of_mem (nodup_map_id distinct.2) (List.mem_map_of_mem is_kid)

theorem countP_idsOf (layouts : List Layout) (wanted : NodeId → Bool) :
    (idsOf layouts).countP wanted = (layouts.map fun layout => layout.ids.countP wanted).sum := by
  induction layouts with
  | nil => rfl
  | cons layout layouts induction_step =>
      rw [idsOf_cons, List.countP_append, induction_step, List.map_cons, List.sum_cons,
        Nat.add_comm]

/-- A tree has its top and the branches and leaves below. -/
theorem size_tree (layout : Layout) :
    layout.tree.size = (layout.kids.map fun kid => kid.tree.size).sum + 1 := by
  cases layout with
  | leaf id held => rfl
  | object id children =>
      have among : Tree.childrenSize (childTrees children) =
          ((Entries.values children).map fun kid => kid.tree.size).sum := by
        induction children with
        | nil => rfl
        | cons entry children induction_step =>
            simp only [childTrees, Tree.childrenSize, Entries.values, List.map_cons,
              List.sum_cons, induction_step]
      rw [tree, Tree.size, among, kids]
  | array id items =>
      have among : Tree.itemsSize (itemTrees items) =
          (items.map fun kid => kid.tree.size).sum := by
        induction items with
        | nil => rfl
        | cons item items induction_step =>
            simp only [itemTrees, Tree.itemsSize, List.map_cons, List.sum_cons, induction_step]
      rw [tree, Tree.size, among, kids]

/-- A tree has the leaves right at its top and those below. -/
theorem length_leafTrails (layout : Layout) :
    layout.tree.leafTrails.length = (if layout.content.isLeaf then 1 else 0) +
      (layout.kids.map fun kid => kid.tree.leafTrails.length).sum := by
  cases layout with
  | leaf id held => rfl
  | object id children =>
      have among : (Tree.childTrails (childTrees children)).length =
          ((Entries.values children).map fun kid => kid.tree.leafTrails.length).sum := by
        induction children with
        | nil => rfl
        | cons entry children induction_step =>
            simp only [childTrees, Tree.childTrails, List.length_append, List.length_map,
              Entries.values, List.map_cons, List.sum_cons, induction_step]
      simpa [tree, Tree.leafTrails, content, Content.isLeaf, kids] using among
  | array id items =>
      have among : ∀ position, (Tree.itemTrails position (itemTrees items)).length =
          (items.map fun kid => kid.tree.leafTrails.length).sum := by
        induction items with
        | nil => exact fun _ => rfl
        | cons item items induction_step =>
            intro position
            simp only [itemTrees, Tree.itemTrails, List.length_append, List.length_map,
              List.map_cons, List.sum_cons, induction_step]
      simpa [tree, Tree.leafTrails, content, Content.isLeaf, kids] using among 0

end Layout

namespace Model

/-- One node lists another among its children. -/
def Lists (model : Model) (above below : NodeId) : Prop :=
  ∃ node, model.node? above = some node ∧ below ∈ node.content.children

/-- One node points to another as its parent. -/
def PointsTo (model : Model) (below above : NodeId) : Prop :=
  model.parent? below = some above

/-- The nodes that can be reached from a node through lists of children. -/
def Below (model : Model) (top : NodeId) : Set NodeId :=
  { id | Relation.ReflTransGen model.Lists top id }

/-- The nodes form one tree under the root, and the other slots are free. -/
structure WellFormed (model : Model) : Prop where
  rootLive : model.contains model.root
  rootTop : model.parent? model.root = none
  /-- Every other node has a parent, which is there and lists it once. -/
  listedOnce : ∀ id, model.contains id → id ≠ model.root →
    ∃ parent above, model.PointsTo id parent ∧ model.node? parent = some above ∧
      above.content.children.count id = 1
  /-- What a node lists is there and points back to it. -/
  pointsBack : ∀ above below, model.Lists above below →
    model.contains below ∧ model.PointsTo below above
  /-- There are neither cycles nor orphans. -/
  reachesRoot : ∀ id, model.contains id → Relation.ReflTransGen model.PointsTo id model.root
  freeExact : model.FreeExact

section Held

variable {model : Model} {parent : Option NodeId} {layout : Layout}

theorem Holds.parent?_eq (holds : model.Holds parent layout) :
    model.parent? layout.id = parent := by
  rw [parent?, holds.here]
  rfl

/-- Every node of a layout but the topmost is listed once by its parent. -/
theorem Stores.listed_once (stored : model.Stores parent layout) {id : NodeId}
    (member : id ∈ layout.ids) : id = layout.id ∨
      ∃ parent above, model.PointsTo id parent ∧ model.node? parent = some above ∧
        above.content.children.count id = 1 := by
  obtain ⟨holds, distinct, exact⟩ := stored
  induction holds with
  | @intro parent layout here distinctKeys below induction_step =>
      rcases Layout.mem_ids.1 member with rfl | ⟨kid, is_kid, in_kid⟩
      · exact Or.inl rfl
      · right
        rcases induction_step kid is_kid in_kid (Layout.nodup_of_mem_kids distinct is_kid) with
          rfl | listed
        · exact ⟨layout.id, _, (below kid is_kid).parent?_eq, here,
            Layout.count_children distinct is_kid⟩
        · exact listed

/-- Every node of a layout reaches the topmost one through parents, and is reached from there
through lists of children. -/
theorem Holds.reaches (holds : model.Holds parent layout) {id : NodeId}
    (member : id ∈ layout.ids) : Relation.ReflTransGen model.PointsTo id layout.id ∧
      Relation.ReflTransGen model.Lists layout.id id := by
  induction holds with
  | @intro parent layout here distinctKeys below induction_step =>
      rcases Layout.mem_ids.1 member with rfl | ⟨kid, is_kid, in_kid⟩
      · exact ⟨.refl, .refl⟩
      · obtain ⟨up, down⟩ := induction_step kid is_kid in_kid
        have lists : model.Lists layout.id kid.id :=
          ⟨_, here, Layout.children_content layout ▸ List.mem_map_of_mem is_kid⟩
        exact ⟨up.tail (below kid is_kid).parent?_eq, down.head lists⟩

/-- How many leaves a layout holds. -/
theorem Holds.countP_leaves (holds : model.Holds parent layout) :
    (layout.ids.countP fun id => (model.node? id).any fun node => node.content.isLeaf) =
      layout.tree.leafTrails.length := by
  induction holds with
  | @intro parent layout here distinctKeys below induction_step =>
      rw [Layout.ids_eq, List.countP_cons, Layout.countP_idsOf, Layout.length_leafTrails, here,
        List.map_congr_left induction_step, Nat.add_comm]
      rfl

/-- How many nodes a layout holds. -/
theorem Holds.length_ids (holds : model.Holds parent layout) :
    layout.ids.length = layout.tree.size := by
  induction holds with
  | @intro parent layout _ _ _ induction_step =>
      have below := Layout.countP_idsOf layout.kids fun _ => true
      simp only [List.countP_true] at below
      rw [Layout.ids_eq, List.length_cons, below, Layout.size_tree,
        List.map_congr_left induction_step]

/-- What a node of a layout lists is a node of the layout. -/
theorem Holds.listed_mem (holds : model.Holds parent layout) {above below : NodeId}
    (member : above ∈ layout.ids) (lists : model.Lists above below) : below ∈ layout.ids := by
  induction holds with
  | @intro parent layout here _ _ induction_step =>
      rcases Layout.mem_ids.1 member with rfl | ⟨kid, is_kid, in_kid⟩
      · obtain ⟨node, node_eq, is_child⟩ := lists
        rw [here, Option.some.injEq] at node_eq
        rw [← node_eq, Layout.children_content] at is_child
        obtain ⟨kid, is_kid, rfl⟩ := List.mem_map.1 is_child
        exact Layout.ids_subset_of_mem_kids is_kid kid.id_mem_ids
      · exact Layout.ids_subset_of_mem_kids is_kid (induction_step kid is_kid in_kid)

/-- The nodes below the topmost node of a layout are those of the layout. -/
theorem Holds.mem_below_iff (holds : model.Holds parent layout) {id : NodeId} :
    id ∈ model.Below layout.id ↔ id ∈ layout.ids := by
  constructor
  · intro reached
    induction reached with
    | refl => exact layout.id_mem_ids
    | tail _ lists induction_step => exact holds.listed_mem induction_step lists
  · exact fun member => (holds.reaches member).2

theorem Stores.ncard_below (stored : model.Stores parent layout) :
    (model.Below layout.id).ncard = layout.ids.length := by
  have same_set : model.Below layout.id = (layout.ids.toFinset : Set NodeId) := by
    ext id
    rw [stored.holds.mem_below_iff, Finset.mem_coe, List.mem_toFinset]
  rw [same_set, Set.ncard_coe_finset, List.toFinset_card_of_nodup stored.distinct]

end Held

namespace Intact

variable {model : Model} {layout : Layout}

theorem pointsBack (intact : model.Intact layout) {above below : NodeId}
    (lists : model.Lists above below) : model.contains below ∧ model.PointsTo below above := by
  obtain ⟨node, above_eq, is_child⟩ := lists
  have live : model.contains above := by rw [contains, above_eq]; rfl
  obtain ⟨places, found⟩ := intact.exists_place live
  obtain ⟨up, target, rfl, stored, -⟩ := intact.at_place found
  rw [stored.holds.here, Option.some.injEq] at above_eq
  rw [← above_eq, Layout.children_content] at is_child
  obtain ⟨kid, is_kid, rfl⟩ := List.mem_map.1 is_child
  have kid_holds := stored.holds.kid_holds is_kid
  exact ⟨kid_holds.live kid.id_mem_ids, kid_holds.parent?_eq⟩

theorem wellFormed (intact : model.Intact layout) : model.WellFormed where
  rootLive := intact.at_root ▸ intact.stores.holds.live layout.id_mem_ids
  rootTop := intact.at_root ▸ intact.stores.holds.parent?_eq
  listedOnce id live not_root :=
    (intact.stores.listed_once (intact.complete id live)).resolve_left
      (intact.at_root ▸ not_root)
  pointsBack _ _ lists := intact.pointsBack lists
  reachesRoot id live :=
    intact.at_root ▸ (intact.stores.holds.reaches (intact.complete id live)).1
  freeExact := intact.stores.freeExact

/-- Counting slots by their nodes is counting nodes. -/
theorem countP_slots (intact : model.Intact layout) (wanted : Node → Bool) :
    (model.slots.toList.countP fun slot => slot.node.any wanted) =
      layout.ids.countP fun id => (model.node? id).any wanted := by
  let full := model.slots.toList.zipIdx.filter fun entry => entry.1.node.any wanted
  let name : Slot × Nat → NodeId := fun entry => ⟨entry.2, entry.1.generation⟩
  have mem_full : ∀ entry, entry ∈ full ↔
      model.slots[entry.2]? = some entry.1 ∧ entry.1.node.any wanted := by
    intro entry
    rw [List.mem_filter, List.mem_zipIdx_iff_getElem?, Array.getElem?_toList]
  have distinct : (full.map name).Nodup := by
    apply List.Nodup.of_map NodeId.index
    have positions : (full.map Prod.snd).Nodup := by
      apply List.Nodup.sublist (List.filter_sublist.map Prod.snd)
      rw [List.zipIdx_map_snd]
      exact List.nodup_range'
    rwa [List.map_map]
  -- Both sides name the same nodes.
  have perm : (layout.ids.filter fun id => (model.node? id).any wanted).Perm (full.map name) := by
    apply (List.perm_ext_iff_of_nodup (intact.stores.distinct.filter _) distinct).2
    intro id
    rw [List.mem_filter, List.mem_map]
    constructor
    · rintro ⟨-, is_wanted⟩
      cases node_eq : model.node? id with
      | none => simp [node_eq] at is_wanted
      | some node =>
          rw [node_eq] at is_wanted
          exact ⟨(⟨id.generation, some node⟩, id.index),
            (mem_full _).2 ⟨node?_eq_some_iff.1 node_eq, is_wanted⟩, rfl⟩
    · rintro ⟨entry, in_full, rfl⟩
      obtain ⟨slot_eq, is_wanted⟩ := (mem_full entry).1 in_full
      have node_eq : model.node? (name entry) = entry.1.node := by simp [node?, name, slot_eq]
      rw [node_eq]
      refine ⟨intact.complete _ ?_, is_wanted⟩
      rw [contains, node_eq]
      cases node_at : entry.1.node with
      | none => simp [node_at] at is_wanted
      | some node => rfl
  calc (model.slots.toList.countP fun slot => slot.node.any wanted)
      = ((model.slots.toList.zipIdx.map Prod.fst).countP fun slot => slot.node.any wanted) := by
        rw [List.zipIdx_map_fst]
    _ = full.length := by rw [List.countP_map, List.countP_eq_length_filter]; rfl
    _ = (layout.ids.filter fun id => (model.node? id).any wanted).length := by
        rw [perm.length_eq, List.length_map]
    _ = layout.ids.countP fun id => (model.node? id).any wanted := by
        rw [List.countP_eq_length_filter]

/-- Every node but none else has an id in the layout. -/
theorem nodeCount_eq_length (intact : model.Intact layout) :
    model.nodeCount = layout.ids.length := by
  have all_live : ∀ id ∈ layout.ids, (model.node? id).any fun _ => true := by
    intro id member
    obtain ⟨node, node_eq⟩ := Option.isSome_iff_exists.1 (intact.stores.holds.live member)
    rw [node_eq]
    rfl
  have is_some : (fun slot : Slot => slot.node.isSome) =
      fun slot => slot.node.any fun _ => true := by
    funext slot
    cases slot.node <;> rfl
  rw [nodeCount, is_some, intact.countP_slots, List.countP_eq_length.2 all_live]

theorem nodeCount_eq (intact : model.Intact layout) :
    model.nodeCount = (model.Below model.root).ncard := by
  rw [intact.nodeCount_eq_length, ← intact.at_root, intact.stores.ncard_below]

/-- There are as many nodes as the tree has branches and leaves. -/
theorem nodeCount_eq_size (intact : model.Intact layout) : model.nodeCount = model.tree.size := by
  rw [intact.nodeCount_eq_length, intact.stores.holds.length_ids, intact.tree_eq]

/-- There are as many leaves as the tree has. -/
theorem leafCount_eq_length (intact : model.Intact layout) :
    model.leafCount = model.tree.leafTrails.length := by
  have counted : model.leafCount =
      model.slots.toList.countP fun slot => slot.node.any fun node => node.content.isLeaf := by
    rw [leafCount]
    congr 1
    funext slot
    cases slot.node <;> rfl
  rw [counted, intact.countP_slots, intact.stores.holds.countP_leaves, intact.tree_eq]

theorem leafCount_eq (intact : model.Intact layout) :
    model.leafCount = (model.leaves model.root).length := by
  rw [intact.leafCount_eq_length, leaves_eq_treeOf, Tree.leaves, List.length_map, tree]

end Intact

/-- After any run, the nodes form one tree, the free list is exact, and the counts of nodes and
leaves are those of the tree. -/
theorem run_wellFormed (id : String) (operations : List Operation) :
    (run id operations).WellFormed ∧
      (run id operations).nodeCount = ((run id operations).Below (run id operations).root).ncard ∧
      (run id operations).leafCount =
        ((run id operations).leaves (run id operations).root).length := by
  obtain ⟨layout, intact⟩ := run_intact id operations
  exact ⟨intact.wellFormed, intact.nodeCount_eq, intact.leafCount_eq⟩

end Model

end VesselHub
