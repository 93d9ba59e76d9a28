/-
Module: VesselHub.Proofs.Model.Deletion
Purpose: A deletion removes the branch under a key and nothing else: each node of the branch once,
  the entry of the branch from its parent, and of all other nodes none. Finding the nodes with a
  stack, while their slots are emptied, makes the same model.
Main exports: Model.retired_release_eq, Model.node?_delete, Model.Intact.nodeCount_of_gone,
  Model.Deleted, ByNodes.delete, Model.run_delete
-/
import VesselHub.Proofs.Model.Retired
import VesselHub.Proofs.Model.Sweep

namespace VesselHub

/-- Removes the child under a key of an object with a stack of the nodes that are still to be
emptied, and tells whether there was one. -/
def ByNodes.delete (model : Model) (node : NodeId) (key : String) : Model × Bool :=
  match model.content? node with
  | some (.object children) =>
      match Entries.get? children key with
      | some child =>
          (sweep (model.setContent node (.object (Entries.erase children key))) [child], true)
      | none => (model, false)
  | _ => (model, false)

namespace Model

variable {model : Model} {parent : Option NodeId} {layout : Layout}

/-! ### Removing a branch -/

/-- Of nodes that are there, each is retired once. -/
private theorem retired_vacate_eq {ids : List NodeId} (distinct : ids.Nodup)
    (live : ∀ id ∈ ids, model.contains id) :
    Retired.along vacate Retired.vacate ids model = ids := by
  induction ids generalizing model with
  | nil => rfl
  | cons id ids induction_step =>
      rw [List.nodup_cons] at distinct
      rw [List.forall_mem_cons] at live
      rw [Retired.along, Retired.vacate, if_pos live.1, induction_step distinct.2]
      · rfl
      · intro other member
        rw [contains, node?_vacate, if_neg (ne_of_mem_of_not_mem member distinct.1)]
        exact live.2 other member

/-- Removing a branch retires each of its ids once. -/
theorem retired_release_eq (stored : model.Stores parent layout) :
    Retired.release model layout.id = layout.ids := by
  rw [Retired.release, stored.holds.subtree_eq stored.distinct]
  exact retired_vacate_eq stored.distinct fun _ => stored.holds.live

variable {id : NodeId} {children : List (String × Layout)} {key : String} {child : Layout}

/-- A child is still stored when its parent does not list it any more. -/
theorem stores_unlisted (stored : model.Stores parent (.object id children))
    (is_child : child ∈ Entries.values children) (content : Content) :
    (model.setContent id content).Stores (some id) child := by
  refine (stored.kid is_child).unchanged (changes_setContent stored.freeExact id content) ?_
  intro other in_child is_id
  rw [List.mem_singleton.1 is_id] at in_child
  exact Layout.id_not_mem_of_mem_kids stored.distinct is_child in_child

/-- What names a node after a deletion: not the ids of the branch, the parent with what is left
below it, and every other id as before. -/
theorem node?_delete (stored : model.Stores parent (.object id children))
    (found : Entries.get? children key = some child) (other : NodeId) :
    (model.delete id key).1.node? other =
      if other ∈ child.ids then none
      else if other = id then some ⟨parent, (Layout.object id (Entries.erase children key)).content⟩
      else model.node? other := by
  have here := stored.holds.here
  have content_eq := stored.holds.content?_eq
  simp only [Layout.id_object, Layout.content] at here content_eq
  have unlisted := stores_unlisted stored (Entries.mem_values_of_get? found)
    (.object (Entries.erase (children.map fun entry => (entry.1, entry.2.id)) key))
  have removed := changes_release unlisted
  rw [delete, content_eq, Layout.content, Entries.erase_map_values]
  simp only [Layout.get?_ids, found, Option.map_some]
  split
  · rename_i in_child
    exact removed.gone other in_child List.not_mem_nil
  · rename_i not_in_child
    rw [removed.frame other not_in_child List.not_mem_nil, setContent, node?_modifyNode]
    split
    · rw [here, Option.map_some]
    · rfl

/-- What a deletion does to a model that has a child under the key: `child` stands among the
children of the node, behind those in `front` and before those in `back`. -/
structure Deleted (before after : Model) (node : NodeId) (key : String)
    (front : List (String × NodeId)) (child : NodeId) (back : List (String × NodeId)) : Prop where
  was_listed : before.content? node = some (.object (front ++ (key, child) :: back))
  /-- The siblings are left in their order. -/
  still_listed : after.content? node = some (.object (front ++ back))
  parent_eq : after.parent? node = before.parent? node
  key_gone : key ∉ Entries.keys (front ++ back)
  /-- The ids that name no node any more are those of the branch. -/
  gone_iff : ∀ id, before.contains id ∧ ¬ after.contains id ↔ id ∈ before.Below child
  /-- Of all other ids each names what it did. -/
  others : ∀ id, id ∉ before.Below child → id ≠ node → after.node? id = before.node? id
  nodeCount_eq : after.nodeCount + (before.Below child).ncard = before.nodeCount
  pathOf?_eq : ∀ id, after.contains id → after.pathOf? id = before.pathOf? id
  /-- Each slot of the branch is emptied once. -/
  retired_once : (Retired.delete before node key).Nodup
  mem_retired_iff : ∀ id, id ∈ Retired.delete before node key ↔ id ∈ before.Below child

/-- A deletion retires the ids of the branch. -/
theorem retired_delete_eq (stored : model.Stores parent (.object id children))
    (found : Entries.get? children key = some child) :
    Retired.delete model id key = child.ids := by
  have content_eq := stored.holds.content?_eq
  simp only [Layout.id_object, Layout.content] at content_eq
  rw [Retired.delete, content_eq]
  simp only [Layout.get?_ids, found, Option.map_some]
  exact retired_release_eq (stores_unlisted stored (Entries.mem_values_of_get? found) _)

/-- Without a child under the key a deletion changes nothing. -/
private theorem delete_of_no_child {node : NodeId}
    (no_child : ∀ children, model.content? node = some (.object children) →
      key ∉ Entries.keys children) : model.delete node key = (model, false) := by
  rw [delete]
  split
  · rename_i children content_eq
    rw [(Entries.get?_eq_none_iff children key).2 (no_child children content_eq)]
  · rfl

private theorem byNodes_delete_of_no_child {node : NodeId}
    (no_child : ∀ children, model.content? node = some (.object children) →
      key ∉ Entries.keys children) : ByNodes.delete model node key = (model, false) := by
  rw [ByNodes.delete]
  split
  · rename_i children content_eq
    rw [(Entries.get?_eq_none_iff children key).2 (no_child children content_eq)]
  · rfl

private theorem delete_told (stored : model.Stores parent (.object id children))
    (found : Entries.get? children key = some child) : (model.delete id key).2 = true := by
  have content_eq := stored.holds.content?_eq
  simp only [Layout.id_object, Layout.content] at content_eq
  simp [delete, content_eq, Layout.get?_ids, found]

/-- With a child under the key the stack removes the branch of the child. -/
theorem byNodes_delete_eq (stored : model.Stores parent (.object id children))
    (found : Entries.get? children key = some child) :
    ByNodes.delete model id key = model.delete id key := by
  have content_eq := stored.holds.content?_eq
  simp only [Layout.id_object, Layout.content] at content_eq
  have unlisted := stores_unlisted stored (Entries.mem_values_of_get? found)
  rw [ByNodes.delete, delete, content_eq]
  simp only [Layout.get?_ids, found, Option.map_some, ByNodes.sweep_eq (unlisted _)]

/-- As many nodes are removed as there are in the branch. -/
theorem Intact.nodeCount_of_gone {after : Model} {left inner : Layout}
    (intact : model.Intact layout) (after_intact : after.Intact left)
    (inner_distinct : inner.ids.Nodup) (inner_live : ∀ id ∈ inner.ids, model.contains id)
    (still_iff : ∀ id, after.contains id ↔ model.contains id ∧ id ∉ inner.ids) :
    after.nodeCount + inner.ids.length = model.nodeCount := by
  have whole_iff : ∀ id, id ∈ layout.ids ↔ model.contains id := fun id =>
    ⟨intact.stores.holds.live, intact.complete id⟩
  have left_iff : ∀ id, id ∈ left.ids ↔ after.contains id := fun id =>
    ⟨after_intact.stores.holds.live, after_intact.complete id⟩
  have distinct : (left.ids ++ inner.ids).Nodup := by
    refine List.nodup_append.2 ⟨after_intact.stores.distinct, inner_distinct, ?_⟩
    rintro id in_left other in_inner rfl
    exact ((still_iff id).1 ((left_iff id).1 in_left)).2 in_inner
  have perm : layout.ids.Perm (left.ids ++ inner.ids) := by
    refine (List.perm_ext_iff_of_nodup intact.stores.distinct distinct).2 fun id => ?_
    rw [List.mem_append, left_iff, still_iff, whole_iff]
    by_cases in_inner : id ∈ inner.ids
    · simp [in_inner, inner_live id in_inner]
    · simp [in_inner]
  rw [intact.nodeCount_eq_length, after_intact.nodeCount_eq_length, perm.length_eq,
    List.length_append]

/-- The nodes that are left are those outside the branch. -/
theorem contains_delete_iff (stored : model.Stores parent (.object id children))
    (found : Entries.get? children key = some child) (other : NodeId) :
    (model.delete id key).1.contains other ↔ model.contains other ∧ other ∉ child.ids := by
  rw [contains, node?_delete stored found]
  split
  · rename_i in_child
    simp [in_child]
  · rename_i not_in_child
    split
    · rename_i same
      have live : model.contains id := stored.holds.live (Layout.id_mem_ids _)
      simp [same ▸ not_in_child, same, live]
    · simp [not_in_child, contains]

theorem Intact.deleted (intact : model.Intact layout)
    (stored : model.Stores parent (.object id children))
    (found : Entries.get? children key = some child) :
    ∃ front back, Deleted model (model.delete id key).1 id key front child.id back := by
  have is_child := Entries.mem_values_of_get? found
  have child_stored := stored.kid is_child
  have id_apart : id ∉ child.ids := Layout.id_not_mem_of_mem_kids stored.distinct is_child
  have below_iff : ∀ other, other ∈ model.Below child.id ↔ other ∈ child.ids := fun _ =>
    child_stored.holds.mem_below_iff
  have after_eq := node?_delete stored found
  have still_iff := contains_delete_iff stored found
  have retired_eq := retired_delete_eq stored found
  have node_after := after_eq id
  rw [if_neg id_apart, if_pos rfl] at node_after
  obtain ⟨left, after_intact⟩ := perform_intact intact (.delete id key)
  have content_eq := stored.holds.content?_eq
  have distinct := stored.holds.distinctKeys
  obtain ⟨front, back, split, absent⟩ := Entries.exists_split_of_get? found
  rw [Layout.content, split, List.map_append, List.map_cons] at content_eq distinct
  rw [Layout.content, split, Entries.erase_of_split absent, List.map_append] at node_after
  exact ⟨_, _, {
    was_listed := content_eq
    still_listed := by rw [content?, node_after, Option.map_some]
    parent_eq := by
      rw [parent?, node_after, Option.bind_some]
      exact stored.holds.parent?_eq.symm
    key_gone := by
      rw [Content.keys, Entries.keys, List.map_append, List.map_cons, List.nodup_middle,
        List.nodup_cons] at distinct
      rw [Entries.keys, List.map_append]
      exact distinct.1
    gone_iff := fun other => by
      rw [below_iff, still_iff]
      constructor
      · rintro ⟨was_live, removed⟩
        exact not_not.1 fun apart => removed ⟨was_live, apart⟩
      · exact fun in_child => ⟨child_stored.holds.live in_child, fun still => still.2 in_child⟩
    others := fun other not_below not_node => by
      rw [after_eq, if_neg (mt (below_iff other).2 not_below), if_neg not_node]
    nodeCount_eq := by
      rw [child_stored.ncard_below]
      exact intact.nodeCount_of_gone after_intact child_stored.distinct
        (fun _ => child_stored.holds.live) still_iff
    pathOf?_eq := fun other still =>
      (retires_delete stored.freeExact id key).pathOf?_eq intact after_intact
        (fun _ _ live => retired_eq ▸ ((still_iff _).1 live).2) ((still_iff other).1 still).1 still
    retired_once := retired_eq ▸ child_stored.distinct
    mem_retired_iff := fun other => by rw [retired_eq, below_iff] }⟩

/-- A deletion finds no object with the key at the node, or it finds one and its child is stored. -/
theorem Intact.finds_child (intact : model.Intact layout) (node : NodeId) (key : String) :
    (∀ children, model.content? node = some (.object children) → key ∉ Entries.keys children) ∨
      ∃ parent children child, model.Stores parent (.object node children) ∧
        Entries.get? children key = some child := by
  by_cases live : model.contains node
  · obtain ⟨places, place_eq⟩ := intact.exists_place live
    obtain ⟨above, target, rfl, stored, -⟩ := intact.at_place place_eq
    have content_eq := stored.holds.content?_eq
    cases target with
    | leaf id held => exact .inl fun _ same => by rw [content_eq] at same; cases same
    | array id items => exact .inl fun _ same => by rw [content_eq] at same; cases same
    | object id children =>
        cases found : Entries.get? children key with
        | none =>
            refine .inl fun listed same => ?_
            rw [content_eq, Option.some.injEq, Layout.content, Content.object.injEq] at same
            rw [← same, Entries.keys_map_values]
            exact (Entries.get?_eq_none_iff children key).1 found
        | some child => exact .inr ⟨_, children, child, stored, found⟩
  · rw [content?_of_gone live]
    exact .inl fun _ same => by cases same

/-- A deletion finds no object with the key at the node and changes nothing, or it removes just the
branch under the key. The stack of nodes makes the same model as the list of the branch. -/
theorem run_delete (name : String) (operations : List Operation) (node : NodeId) (key : String) :
    let model := run name operations
    ByNodes.delete model node key = model.delete node key ∧
      ((model.delete node key = (model, false) ∧ ∀ children,
          model.content? node = some (.object children) → key ∉ Entries.keys children) ∨
        ∃ after front child back, model.delete node key = (after, true) ∧
          Deleted model after node key front child back) := by
  obtain ⟨layout, intact⟩ := run_intact name operations
  rcases intact.finds_child node key with no_child | ⟨parent, children, child, stored, found⟩
  · have told := delete_of_no_child no_child
    exact ⟨(byNodes_delete_of_no_child no_child).trans told.symm, .inl ⟨told, no_child⟩⟩
  · obtain ⟨front, back, deleted⟩ := intact.deleted stored found
    exact ⟨byNodes_delete_eq stored found,
      .inr ⟨_, front, child.id, back, Prod.ext rfl (delete_told stored found), deleted⟩⟩

end Model

end VesselHub
