/-
Module: VesselHub.Proofs.Model.Follow
Purpose: Following keys through the model, creating objects on the way or not. Both agree with
  following the keys through the tree.
Main exports: Layout.Follows, Model.ensurePath_spec, Model.replaces_at_path, Model.walk?_of_stores,
  Model.leads_of_walk?
-/
import VesselHub.Proofs.Model.Place
import VesselHub.Proofs.Tree.ChangeAt

namespace VesselHub

namespace Layout

/-- The keys that lead through objects only from a layout to one below it. -/
inductive Follows : Layout → List String → Layout → Prop where
  | here (layout : Layout) : Follows layout [] layout
  | step {id : NodeId} {children : List (String × Layout)} {key : String} {keys : List String}
      {inner target : Layout} (found : Entries.get? children key = some inner)
      (is_object : inner.asObject = inner) (rest : Follows inner keys target) :
      Follows (.object id children) (key :: keys) target

theorem tree_objectAt {id : NodeId} {children : List (String × Layout)} {key : String}
    {inner : Layout} (found : Entries.get? children key = some inner)
    (is_object : inner.asObject = inner) :
    (object id children).tree.objectAt key = inner.tree := by
  have inner_entries : (object id children).innerEntries key = inner.entries := by
    show ((Entries.get? children key).map entries).getD [] = inner.entries
    rw [found, Option.map_some, Option.getD_some]
  rw [← tree_innerEntries (object id children) inner.id key, inner_entries, ← asObject_eq,
    is_object]

theorem Follows.id_mem {layout target : Layout} {keys : List String}
    (follows : layout.Follows keys target) : target.id ∈ layout.ids := by
  induction follows with
  | here layout => exact layout.id_mem_ids
  | step found _ _ induction_step =>
      exact ids_subset_of_mem_kids (Entries.mem_values_of_get? found) induction_step

/-- Keys lead through a layout to what they lead to through its tree. -/
theorem Follows.through_eq {layout target : Layout} {keys : List String}
    (follows : layout.Follows keys target) : layout.tree.through keys = target.tree := by
  induction follows with
  | here layout => rfl
  | step found is_object _ induction_step =>
      rw [Tree.through, tree_objectAt found is_object, induction_step]

/-- A layout that is an object by its tree is one. -/
theorem asObject_of_tree {layout : Layout} {children : List (String × Tree)}
    (is_object : layout.tree = .object children) : layout.asObject = layout := by
  cases layout with
  | leaf id held => cases is_object
  | array id items => cases is_object
  | object id children => rfl

end Layout

namespace Model

variable {model : Model} {parent : Option NodeId} {layout target : Layout}

/-- A layout at the end of keys is stored, and replacing it replaces the whole. Objects stay
where the keys lead. -/
theorem stores_of_follows {keys : List String} (follows : layout.Follows keys target)
    (stored : model.Stores parent layout) :
    ∃ above, model.Stores above target ∧ ∀ {after : Model} {new : Layout} (change : Tree → Tree),
      Replaces model after above target new → new.tree = change target.tree →
        ∃ whole, Replaces model after parent layout whole ∧
          whole.tree = layout.tree.changeAt keys change ∧
          (new.asObject = new → whole.asObject = whole ∧ whole.Follows keys new) := by
  induction follows generalizing parent with
  | here layout =>
      exact ⟨parent, stored, fun _ replaced tree_eq =>
        ⟨_, replaced, tree_eq, fun is_object => ⟨is_object, .here _⟩⟩⟩
  | @step id children key keys inner target found is_object rest induction_step =>
      obtain ⟨above, target_stored, lifts⟩ :=
        induction_step (stored.kid (Entries.mem_values_of_get? found))
      refine ⟨above, target_stored, fun change replaced tree_eq => ?_⟩
      obtain ⟨inner', inner_replaced, inner_tree, inner_follows⟩ := lifts change replaced tree_eq
      refine ⟨_, inner_replaced.lift_key stored found, ?_, fun new_is_object => ⟨rfl, ?_⟩⟩
      · have inserted := Layout.tree_insert (.object id children) inner' key
        simp only [Layout.id_object, Layout.entries] at inserted
        rw [inserted, Tree.changeAt, Layout.tree_objectAt found is_object, inner_tree]
      · obtain ⟨inner_is_object, follows⟩ := inner_follows new_is_object
        exact .step (Entries.get?_insert_self ..) inner_is_object follows

/-- Creating the objects along keys. They are there afterwards, and lead to the node that is
returned. -/
theorem ensurePath_spec : ∀ (keys : List String) {model : Model} {parent : Option NodeId}
    {layout : Layout}, model.Stores parent layout →
      ∃ path target, Replaces model (model.ensurePath layout.id keys).1 parent layout path ∧
        path.Follows keys target ∧ target.id = (model.ensurePath layout.id keys).2 ∧
        path.tree = layout.tree.changeAt keys id ∧
        (layout.asObject = layout → path.asObject = path)
  | [], model, _, layout, stored =>
      ⟨layout, layout, stored.replaces_refl, .here layout, rfl, rfl, id⟩
  | key :: keys, model, parent, layout, stored => by
      obtain ⟨inner, target, replaced, follows, target_id, tree_eq, is_object⟩ :=
        ensurePath_spec keys (stores_ensureObject stored key)
      refine ⟨_, target, replaces_in_object stored key replaced,
        .step (Entries.get?_insert_self ..) (is_object rfl) follows, target_id, ?_, fun _ => rfl⟩
      rw [Layout.tree_insert, tree_eq, Layout.tree_innerEntries, Tree.changeAt]

/-- A change at the node at the end of a created path changes the tree at the end of the path. -/
theorem replaces_at_path (keys : List String) (stored : model.Stores parent layout)
    (after : Model) (change : Tree → Tree)
    (at_end : ∀ {above : Option NodeId} {target : Layout},
      (model.ensurePath layout.id keys).1.Stores above target →
      target.id = (model.ensurePath layout.id keys).2 →
        ∃ new, Replaces (model.ensurePath layout.id keys).1 after above target new ∧
          new.tree = change target.tree) :
    ∃ whole, Replaces model after parent layout whole ∧
      whole.tree = layout.tree.changeAt keys change := by
  obtain ⟨path, target, created, follows, target_id, path_tree, -⟩ := ensurePath_spec keys stored
  obtain ⟨above, target_stored, lifts⟩ := stores_of_follows follows created.stores
  obtain ⟨new, replaced, new_tree⟩ := at_end target_stored target_id
  obtain ⟨whole, whole_replaced, whole_tree, -⟩ := lifts change replaced new_tree
  refine ⟨whole, created.trans whole_replaced, ?_⟩
  rw [whole_tree, path_tree, Tree.changeAt_changeAt_id]

end Model

/-! ### Following keys without creating anything -/

namespace Layout

/-- The layout right below under a key. Items of arrays are named by their position. -/
def child? (layout : Layout) (key : String) : Option Layout :=
  match layout with
  | .leaf _ _ => none
  | .object _ children => Entries.get? children key
  | .array _ items => (Path.position? key).bind fun position => items[position]?

/-- The layout that keys lead to. -/
def walk? (layout : Layout) : List String → Option Layout
  | [] => some layout
  | key :: keys => (layout.child? key).bind fun child => child.walk? keys

theorem mem_kids_of_child? {layout child : Layout} {key : String}
    (found : layout.child? key = some child) : child ∈ layout.kids := by
  cases layout with
  | leaf id held => simp [child?] at found
  | object id children => exact Entries.mem_values_of_get? found
  | array id items =>
      obtain ⟨position, _, item_eq⟩ := Option.bind_eq_some_iff.1 found
      exact List.mem_of_getElem? item_eq

theorem tree_child? (layout : Layout) (key : String) :
    layout.tree.child? key = (layout.child? key).map tree := by
  cases layout with
  | leaf id held => rfl
  | object id children =>
      rw [tree, Tree.child?, childTrees_eq_map]
      exact Entries.get?_map_values tree children key
  | array id items =>
      simp only [tree, Tree.child?, child?, itemTrees_eq_map, Option.map_bind]
      congr 1
      funext position
      simp

theorem tree_walk? (layout : Layout) (keys : List String) :
    layout.tree.walk? keys = (layout.walk? keys).map tree := by
  induction keys generalizing layout with
  | nil => rfl
  | cons key keys induction_step =>
      rw [Tree.walk?, walk?, tree_child?]
      cases layout.child? key with
      | none => rfl
      | some child => exact induction_step child

end Layout

/-- Changing the value at the position behind the first values of a list. -/
private theorem modify_split {Value : Type} (before after : List Value) (value : Value)
    (change : Value → Value) : (before ++ value :: after).modify before.length change =
      before ++ change value :: after := by
  induction before with
  | nil => rfl
  | cons first before induction_step => simp [induction_step]

namespace Model

variable {model : Model} {parent : Option NodeId} {layout target : Layout}

theorem child?_of_stores (stored : model.Stores parent layout) (key : String) :
    model.child? layout.id key = (layout.child? key).map Layout.id := by
  rw [child?, stored.holds.content?_eq]
  cases layout with
  | leaf id held => rfl
  | object id children => exact Layout.get?_ids children key
  | array id items =>
      simp only [Layout.content, Layout.child?, Option.map_bind]
      congr 1
      funext position
      simp

theorem walk?_of_stores (stored : model.Stores parent layout) (keys : List String) :
    model.walk? layout.id keys = (layout.walk? keys).map Layout.id := by
  induction keys generalizing layout parent with
  | nil => simp [walk?, Layout.walk?, stored.holds.live layout.id_mem_ids]
  | cons key keys induction_step =>
      rw [walk?, Layout.walk?, child?_of_stores stored]
      cases found : layout.child? key with
      | none => rfl
      | some child => exact induction_step (stored.kid (Layout.mem_kids_of_child? found))

/-- Keys lead to a place, and a change at their end is a change at that place. -/
theorem leads_of_walk? {keys : List String} (stored : model.Stores parent layout)
    (found : layout.walk? keys = some target) :
    ∃ places, layout.Leads places target ∧
      ∀ change, layout.tree.modifyAt keys change = layout.tree.changeAtPlace places change := by
  induction keys generalizing layout parent with
  | nil =>
      cases found
      exact ⟨[], .here _, fun _ => rfl⟩
  | cons key keys induction_step =>
      obtain ⟨child, child_eq, rest⟩ := Option.bind_eq_some_iff.1 found
      obtain ⟨places, leads, change_eq⟩ :=
        induction_step (stored.kid (Layout.mem_kids_of_child? child_eq)) rest
      cases layout with
      | leaf id held => simp [Layout.child?] at child_eq
      | array id items =>
          obtain ⟨position, position_eq, item_eq⟩ := Option.bind_eq_some_iff.1 child_eq
          refine ⟨position :: places, .step item_eq leads, ?_⟩
          intro change
          simp only [Layout.tree, Layout.itemTrees_eq_map, Tree.modifyAt, position_eq,
            Tree.changeAtPlace]
          congr 1
          apply List.ext_getElem?
          intro index
          simp only [List.getElem?_modify, List.getElem?_map]
          by_cases same : position = index
          · subst same
            simp [item_eq, change_eq]
          · simp [same]
      | object id children =>
          obtain ⟨before, after, rfl, absent⟩ := Entries.exists_split_of_get? child_eq
          refine ⟨before.length :: places, .step ?_ leads, ?_⟩
          · simp [Layout.kids, Entries.values]
          · intro change
            have distinct := stored.holds.distinctKeys
            simp only [Layout.content, Content.keys, Entries.keys_map_values] at distinct
            rw [← Entries.keys_map_values Layout.tree] at distinct
            rw [List.map_append, List.map_cons] at distinct
            have at_key := Entries.map_if_of_split distinct fun tree => tree.modifyAt keys change
            have at_place := modify_split
              (before.map fun entry => (entry.1, entry.2.tree))
              (after.map fun entry => (entry.1, entry.2.tree)) (key, child.tree)
              fun entry => (entry.1, entry.2.changeAtPlace places change)
            rw [List.length_map] at at_place
            rw [Layout.tree, Layout.childTrees_eq_map, Tree.modifyAt, Tree.changeAtPlace,
              List.map_append, List.map_cons, at_key, at_place, change_eq]

/-- Where keys lead nowhere, nothing is changed. -/
theorem modifyAt_of_walk?_eq_none {keys : List String} (stored : model.Stores parent layout)
    (nowhere : layout.walk? keys = none) (change : Tree → Tree) :
    layout.tree.modifyAt keys change = layout.tree := by
  induction keys generalizing layout parent with
  | nil => simp [Layout.walk?] at nowhere
  | cons key keys induction_step =>
      have below : ∀ child, layout.child? key = some child →
          child.tree.modifyAt keys change = child.tree := by
        intro child child_eq
        rw [Layout.walk?, child_eq, Option.bind_some] at nowhere
        exact induction_step (stored.kid (Layout.mem_kids_of_child? child_eq)) nowhere
      cases layout with
      | leaf id held => rfl
      | array id items =>
          simp only [Layout.tree, Tree.modifyAt]
          cases position_eq : Path.position? key with
          | none => rfl
          | some position =>
              simp only [Layout.itemTrees_eq_map]
              congr 1
              apply List.ext_getElem?
              intro index
              simp only [List.getElem?_modify, List.getElem?_map]
              by_cases same : position = index
              · subst same
                cases item_eq : items[position]? with
                | none => rfl
                | some item => simp [below item (by simp [Layout.child?, position_eq, item_eq])]
              · simp [same]
      | object id children =>
          have distinct := stored.holds.distinctKeys
          simp only [Layout.content, Content.keys, Entries.keys_map_values] at distinct
          rw [← Entries.keys_map_values Layout.tree] at distinct
          simp only [Layout.tree, Layout.childTrees_eq_map, Tree.modifyAt]
          congr 1
          cases found : Entries.get? children key with
          | none =>
              have absent := (Entries.get?_eq_none_iff children key).1 found
              rw [← Entries.keys_map_values Layout.tree] at absent
              exact Entries.map_if_of_not_mem absent fun tree => tree.modifyAt keys change
          | some child =>
              obtain ⟨before, after, rfl, absent⟩ := Entries.exists_split_of_get? found
              rw [List.map_append, List.map_cons] at distinct ⊢
              rw [Entries.map_if_of_split distinct fun tree => tree.modifyAt keys change,
                below child found]

end Model

end VesselHub
