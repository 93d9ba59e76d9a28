/-
Module: VesselHub.Proofs.Model.Write
Purpose: Every step that writes into the model replaces the layout at one node, and the tree of the
  new layout is what the same step makes of the old tree.
Main exports: Model.replaces_attach, Model.replaces_ensureObject, Model.setLeaf_spec,
  Model.replaces_delete
-/
import VesselHub.Model.Write
import VesselHub.Proofs.Model.Replace

namespace VesselHub.Model

/-! ### Putting a layout under a key -/

/-- A layout that was built below an object is put under a key of it, and what was there is
removed. -/
theorem replaces_attach {first second : Model} {parent : Option NodeId} {id : NodeId}
    {children : List (String × Layout)} {added : Layout} (key : String)
    (stored : first.Stores parent (.object id children))
    (built : Builds first second (some id) [added]) :
    Replaces first (second.attach id key added.id) parent (.object id children)
      (.object id (Entries.insert children key added)) := by
  -- The object lists what was built, and what stood under the key is removed.
  have same_id : (Layout.object id (Entries.insert children key added)).id = id := rfl
  have distinctKeys :
      (Layout.object id (Entries.insert children key added)).content.keys.Nodup := by
    have distinct := stored.holds.distinctKeys
    simp only [Layout.content, Content.keys, Entries.keys_map_values] at distinct ⊢
    exact Entries.nodup_keys_insert distinct key added
  have kids : ∀ kid ∈ Entries.values (Entries.insert children key added),
      kid ∈ Entries.values children ∨ kid ∈ [added] := by
    intro kid member
    rcases Entries.mem_values_insert member with rfl | is_child
    · exact Or.inr (List.mem_singleton_self kid)
    · exact Or.inl is_child
  have gone_kids : ∀ kid ∈ (Entries.get? children key).toList, kid ∈ Entries.values children :=
    fun kid is_gone => Entries.mem_values_of_get? (Option.mem_toList.1 is_gone)
  have perm := Layout.ids_insert_perm id children key added
  rw [← Layout.idsOf_singleton added] at perm
  have rewired := replaces_rewired stored built same_id distinctKeys kids gone_kids perm
  simp only [Layout.id_object] at rewired
  -- Then the new child is told its parent, which it has already.
  generalize cleared_eq : ((Entries.get? children key).toList.map Layout.id).foldl release
    (second.setContent id (Layout.object id (Entries.insert children key added)).content) =
      cleared at rewired
  have attached_eq : second.attach id key added.id = cleared.setParent added.id id := by
    have content_eq := (stored.unchanged built.change fun _ _ => List.not_mem_nil).holds.content?_eq
    simp only [Layout.id_object, Layout.content] at content_eq
    rw [attach, content_eq, ← cleared_eq, Layout.content_insert]
    cases found : Entries.get? children key with
    | none => simp [Layout.get?_ids, found]
    | some replaced =>
        have differs : replaced.id ≠ added.id := by
          intro same
          have stored_id : replaced.id ∈ (Layout.object id children).ids :=
            Layout.ids_subset_of_mem_kids (Entries.mem_values_of_get? found) replaced.id_mem_ids
          refine built.change.apart (fun id => stored.holds.live) (fun _ _ => List.not_mem_nil)
            replaced.id stored_id ?_
          simp [same, added.id_mem_ids]
        simp [Layout.get?_ids, found, Option.filter, differs]
  have pointing := changes_setParent rewired.stores.freeExact
    (rewired.stores.holds.kid_holds (Entries.value_mem_insert children key added)).here
  rw [attached_eq]
  refine rewired.trans ⟨rfl, rewired.stores.unchanged pointing fun _ _ => List.not_mem_nil, ?_⟩
  exact pointing.widen _ fun _ member => absurd member List.not_mem_nil

/-! ### New nodes -/

/-- A new node that holds nothing below it. -/
theorem builds_allocate {model : Model} (exact : model.FreeExact) (parent : Option NodeId)
    (layout : Layout) (top : layout.id = (model.allocate parent layout.content).2)
    (hollow : layout.kids = []) :
    Builds model (model.allocate parent layout.content).1 parent [layout] := by
  have ids_eq : layout.ids = [layout.id] := by simp [Layout.ids_eq layout, hollow]
  have no_keys : layout.content.keys = [] := by
    cases layout with
    | leaf id held => rfl
    | array id items => rfl
    | object id children =>
        have no_children : children = [] := by simpa [Layout.kids, Entries.values] using hollow
        simp [no_children, Layout.content, Content.keys]
  refine ⟨?_, by simp [Layout.idsOf, ids_eq], ?_⟩
  · have born := changes_allocate exact parent layout.content
    rw [← top] at born
    simpa [Layout.idsOf, ids_eq] using born
  · intro other member
    rw [List.mem_singleton.1 member]
    refine .intro ?_ (by simp [no_keys]) (by simp [hollow])
    rw [node?_allocate exact, if_pos top]

theorem builds_leaf {model : Model} (exact : model.FreeExact) (parent : Option NodeId)
    (held : Leaf) : Builds model (model.allocate parent (.leaf held)).1 parent
      [.leaf (model.allocate parent (.leaf held)).2 held] :=
  builds_allocate exact parent (.leaf _ held) rfl rfl

theorem builds_object {model : Model} (exact : model.FreeExact) (parent : Option NodeId) :
    Builds model (model.allocate parent (.object [])).1 parent
      [.object (model.allocate parent (.object [])).2 []] :=
  builds_allocate exact parent (.object _ []) rfl rfl

theorem builds_array {model : Model} (exact : model.FreeExact) (parent : Option NodeId) :
    Builds model (model.allocate parent (.array [])).1 parent
      [.array (model.allocate parent (.array [])).2 []] :=
  builds_allocate exact parent (.array _ []) rfl rfl

/-- A new node gets the layouts that were built below it as its contents. -/
theorem builds_filled {first second : Model} {parent : Option NodeId} {content : Content}
    (exact : first.FreeExact) (layout : Layout)
    (top : layout.id = (first.allocate parent content).2)
    (built : Builds (first.allocate parent content).1 second (some layout.id) layout.kids)
    (distinctKeys : layout.content.keys.Nodup) :
    Builds first (second.setContent layout.id layout.content) parent [layout] := by
  have born := changes_allocate exact parent content
  have live := node?_allocate exact parent content layout.id
  rw [← top] at born
  rw [if_pos top] at live
  exact .fill layout born live built distinctKeys

end VesselHub.Model

namespace VesselHub.Layout

/-- What the object under a key of a layout holds: nothing, if there is no object. -/
def innerEntries (layout : Layout) (key : String) : List (String × Layout) :=
  ((Entries.get? layout.entries key).map entries).getD []

theorem tree_insert (layout added : Layout) (key : String) :
    (object layout.id (Entries.insert layout.entries key added)).tree =
      layout.tree.setChild key added.tree := by
  rw [tree, childTrees_eq_map, Entries.insert_map_values tree, ← childTrees_eq_map,
    childTrees_entries]
  rfl

theorem tree_innerEntries (layout : Layout) (id : NodeId) (key : String) :
    (object id (layout.innerEntries key)).tree = layout.tree.objectAt key := by
  rw [tree, innerEntries, Tree.objectAt, ← childTrees_entries, childTrees_eq_map layout.entries,
    Entries.get?_map_values tree]
  cases Entries.get? layout.entries key with
  | none => rfl
  | some inner => simp [childTrees_entries]

end VesselHub.Layout

namespace VesselHub.Model

variable {model : Model} {parent : Option NodeId} {layout : Layout}

theorem child?_object {id : NodeId} {children : List (String × Layout)}
    (stored : model.Stores parent (.object id children)) (key : String) :
    model.child? id key = (Entries.get? children key).map Layout.id := by
  have content_eq := stored.holds.content?_eq
  simp only [Layout.id_object, Layout.content] at content_eq
  simp only [child?, content_eq, Layout.get?_ids]

/-! ### Single writes -/

theorem replaces_ensureObject (stored : model.Stores parent layout) (key : String) :
    Replaces model (model.ensureObject layout.id key).1 parent layout
      (.object layout.id (Entries.insert layout.entries key
        (.object (model.ensureObject layout.id key).2 (layout.innerEntries key)))) := by
  have made := replaces_makeObject stored
  rw [Layout.asObject_eq] at made
  unfold ensureObject
  simp only [child?_object made.stores]
  cases found : Entries.get? layout.entries key with
  | some inner =>
      have inner_made := replaces_makeObject
        (made.stores.kid (Entries.mem_values_of_get? found))
      rw [Layout.asObject_eq] at inner_made
      have inner_eq : layout.innerEntries key = inner.entries := by
        simp [Layout.innerEntries, found]
      simpa only [Option.map_some, inner_eq] using
        made.trans (inner_made.lift_key made.stores found)
  | none =>
      have inner_eq : layout.innerEntries key = [] := by simp [Layout.innerEntries, found]
      have built := builds_object made.stores.freeExact (some layout.id)
      simpa only [Option.map_none, inner_eq, Layout.id_object] using
        made.trans (replaces_attach key made.stores built)

/-- The object that was found or made under a key. -/
theorem stores_ensureObject (stored : model.Stores parent layout) (key : String) :
    (model.ensureObject layout.id key).1.Stores (some layout.id)
      (.object (model.ensureObject layout.id key).2 (layout.innerEntries key)) :=
  (replaces_ensureObject stored key).stores.kid
    (Entries.mem_values_of_get? (Entries.get?_insert_self ..))

/-- A replacement at the object that was found or made under a key. -/
theorem replaces_in_object (stored : model.Stores parent layout) (key : String) {after : Model}
    {inner : Layout}
    (replaced : Replaces (model.ensureObject layout.id key).1 after (some layout.id)
      (.object (model.ensureObject layout.id key).2 (layout.innerEntries key)) inner) :
    Replaces model after parent layout
      (.object layout.id (Entries.insert layout.entries key inner)) := by
  have ensured := replaces_ensureObject stored key
  have lifted := replaced.lift_key ensured.stores (Entries.get?_insert_self ..)
  rw [Entries.insert_insert] at lifted
  exact ensured.trans lifted

theorem replaces_setLeaf (stored : model.Stores parent layout) (key : String) (leaf : Leaf) :
    Replaces model (model.setLeaf layout.id key leaf).1 parent layout
      (.object layout.id (Entries.insert layout.entries key
        (.leaf (model.setLeaf layout.id key leaf).2 leaf))) := by
  have made := replaces_makeObject stored
  rw [Layout.asObject_eq] at made
  have built := builds_leaf made.stores.freeExact (some layout.id) leaf
  have attached := made.trans (replaces_attach key made.stores built)
  unfold setLeaf
  simp only [child?_object made.stores]
  cases found : Entries.get? layout.entries key with
  | none => simpa only [Option.map_none, Option.filter_none, Layout.id_leaf] using attached
  | some inner =>
      have inner_stored := made.stores.kid (Entries.mem_values_of_get? found)
      have content_eq := inner_stored.holds.content?_eq
      -- A leaf is overwritten in place; anything else is replaced by a new node.
      cases inner with
      | leaf id held =>
          have written := (replaces_content inner_stored leaf).lift_key made.stores found
          simp only [Layout.id_leaf, Layout.content] at content_eq
          simpa [Option.filter, leaf?, content_eq] using made.trans written
      | object id children =>
          simp only [Layout.id_object, Layout.content] at content_eq
          simpa [Option.filter, leaf?, content_eq] using attached
      | array id items =>
          simp only [Layout.id_array, Layout.content] at content_eq
          simpa [Option.filter, leaf?, content_eq] using attached

/-- Writing a leaf under a key makes the tree what `putLeaf` makes of it. -/
theorem setLeaf_spec (stored : model.Stores parent layout) (key : String) (leaf : Leaf) :
    ∃ written, Replaces model (model.setLeaf layout.id key leaf).1 parent layout written ∧
      written.tree = layout.tree.putLeaf key leaf :=
  ⟨_, replaces_setLeaf stored key leaf, Layout.tree_insert ..⟩

theorem replaces_delete (stored : model.Stores parent layout) (key : String) :
    ∃ left, Replaces model (model.delete layout.id key).1 parent layout left ∧
      left.tree = layout.tree.deleteChild key := by
  have content_eq := stored.holds.content?_eq
  cases layout with
  | leaf id held =>
      simp only [Layout.id_leaf, Layout.content] at content_eq
      simp only [delete, Layout.id_leaf, content_eq]
      exact ⟨_, stored.replaces_refl, rfl⟩
  | array id items =>
      simp only [Layout.id_array, Layout.content] at content_eq
      simp only [delete, Layout.id_array, content_eq]
      exact ⟨_, stored.replaces_refl, rfl⟩
  | object id children =>
      simp only [Layout.id_object, Layout.content] at content_eq
      simp only [delete, Layout.id_object, content_eq, Layout.get?_ids]
      cases found : Entries.get? children key with
      | none =>
          refine ⟨_, stored.replaces_refl, ?_⟩
          have absent := (Entries.get?_eq_none_iff children key).1 found
          rw [Layout.tree, Tree.deleteChild, Layout.childTrees_eq_map,
            ← Entries.erase_map_values Layout.tree, Entries.erase_of_not_mem absent]
      | some child =>
          have perm := Layout.ids_erase_perm id found
          rw [← Layout.idsOf_singleton child] at perm
          have nothing_built := Builds.nil stored.freeExact (some id)
          have same_id : (Layout.object id (Entries.erase children key)).id = id := rfl
          have distinctKeys :
              (Layout.object id (Entries.erase children key)).content.keys.Nodup := by
            have distinct := stored.holds.distinctKeys
            simp only [Layout.content, Content.keys, Entries.keys_map_values] at distinct ⊢
            exact distinct.sublist (Entries.keys_erase_sublist children key)
          have rewired := replaces_rewired stored nothing_built same_id distinctKeys
            (fun kid is_left =>
              Or.inl (((Entries.erase_sublist children key).map Prod.snd).subset is_left))
            (fun kid is_gone => List.mem_singleton.1 is_gone ▸ Entries.mem_values_of_get? found)
            (by simpa using perm)
          rw [← Entries.erase_map_values Layout.id]
          refine ⟨_, rewired, ?_⟩
          rw [Layout.tree, Layout.tree, Tree.deleteChild, Layout.childTrees_eq_map,
            Layout.childTrees_eq_map, ← Entries.erase_map_values Layout.tree]

end VesselHub.Model
