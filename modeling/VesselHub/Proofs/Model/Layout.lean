/-
Module: VesselHub.Proofs.Model.Layout
Purpose: Trees whose branches carry the ids of the nodes that hold them. A layout says where in
  the slots a tree is kept, so that facts about nodes become facts about one tree.
Main exports: Layout, Layout.tree, Layout.ids, Model.Holds, Model.Holds.treeOf_eq,
  Model.Holds.subtree_eq
-/
import VesselHub.Model.Copy
import VesselHub.Proofs.Model.Slots

namespace VesselHub

/-- The keys of a node's children. -/
def Content.keys : Content → List String
  | .object children => Entries.keys children
  | _ => []

/-- A tree with the id of the node of each branch and leaf. -/
inductive Layout where
  | leaf (id : NodeId) (held : Leaf)
  | object (id : NodeId) (children : List (String × Layout))
  | array (id : NodeId) (items : List Layout)

namespace Layout

/-- The id of the topmost node. -/
def id : Layout → NodeId
  | .leaf id _ => id
  | .object id _ => id
  | .array id _ => id

@[simp] theorem id_leaf (top : NodeId) (held : Leaf) : (leaf top held).id = top := rfl

@[simp] theorem id_object (top : NodeId) (children : List (String × Layout)) :
    (object top children).id = top := rfl

@[simp] theorem id_array (top : NodeId) (items : List Layout) : (array top items).id = top := rfl

/-- The layouts right below, in order. -/
def kids : Layout → List Layout
  | .leaf _ _ => []
  | .object _ children => Entries.values children
  | .array _ items => items

/-- What the topmost node holds. -/
def content : Layout → Content
  | .leaf _ held => .leaf held
  | .object _ children => .object (children.map fun entry => (entry.1, entry.2.id))
  | .array _ items => .array (items.map id)

mutual

/-- Every id, in the order in which the nodes are removed: later children first. -/
def ids : Layout → List NodeId
  | .leaf id _ => [id]
  | .object id children => id :: childIds children
  | .array id items => id :: itemIds items

def childIds : List (String × Layout) → List NodeId
  | [] => []
  | (_, child) :: children => childIds children ++ child.ids

def itemIds : List Layout → List NodeId
  | [] => []
  | item :: items => itemIds items ++ item.ids

end

mutual

/-- The tree without the ids. -/
def tree : Layout → Tree
  | .leaf _ held => .leaf held
  | .object _ children => .object (childTrees children)
  | .array _ items => .array (itemTrees items)

def childTrees : List (String × Layout) → List (String × Tree)
  | [] => []
  | (key, child) :: children => (key, child.tree) :: childTrees children

def itemTrees : List Layout → List Tree
  | [] => []
  | item :: items => item.tree :: itemTrees items

end

/-- The ids of several layouts. -/
def idsOf (layouts : List Layout) : List NodeId :=
  layouts.reverse.flatMap ids

theorem childTrees_eq_map (children : List (String × Layout)) :
    childTrees children = children.map fun entry => (entry.1, entry.2.tree) := by
  induction children with
  | nil => rfl
  | cons entry children induction_step => simp [childTrees, induction_step]

theorem itemTrees_eq_map (items : List Layout) : itemTrees items = items.map tree := by
  induction items with
  | nil => rfl
  | cons item items induction_step => simp [itemTrees, induction_step]

private theorem childIds_eq (children : List (String × Layout)) :
    childIds children = idsOf (Entries.values children) := by
  induction children with
  | nil => rfl
  | cons entry children induction_step =>
      simp [childIds, induction_step, idsOf, Entries.values]

private theorem itemIds_eq (items : List Layout) : itemIds items = idsOf items := by
  induction items with
  | nil => rfl
  | cons item items induction_step => simp [itemIds, induction_step, idsOf]

/-- The ids of a layout are its own and those of the layouts right below. -/
theorem ids_eq (layout : Layout) : layout.ids = layout.id :: idsOf layout.kids := by
  cases layout with
  | leaf id held => simp [ids, kids, idsOf]
  | object id children => simp [ids, kids, childIds_eq]
  | array id items => simp [ids, kids, itemIds_eq]

theorem mem_idsOf {layouts : List Layout} {id : NodeId} :
    id ∈ idsOf layouts ↔ ∃ layout ∈ layouts, id ∈ layout.ids := by
  simp [idsOf]

theorem mem_ids {layout : Layout} {id : NodeId} :
    id ∈ layout.ids ↔ id = layout.id ∨ ∃ kid ∈ layout.kids, id ∈ kid.ids := by
  rw [ids_eq, List.mem_cons, mem_idsOf]

theorem id_mem_ids (layout : Layout) : layout.id ∈ layout.ids :=
  mem_ids.2 (Or.inl rfl)

theorem ids_subset_of_mem_kids {layout kid : Layout} (member : kid ∈ layout.kids) :
    kid.ids ⊆ layout.ids :=
  fun _ below => mem_ids.2 (Or.inr ⟨kid, member, below⟩)

theorem idsOf_append (before after : List Layout) :
    idsOf (before ++ after) = idsOf after ++ idsOf before := by
  simp [idsOf]

theorem idsOf_cons (layout : Layout) (layouts : List Layout) :
    idsOf (layout :: layouts) = idsOf layouts ++ layout.ids := by
  simp [idsOf]

@[simp] theorem idsOf_nil : idsOf [] = [] := rfl

@[simp] theorem idsOf_singleton (layout : Layout) : idsOf [layout] = layout.ids := by
  simp [idsOf]

/-- The children of the topmost node are the layouts right below. -/
theorem children_content (layout : Layout) : layout.content.children = layout.kids.map id := by
  cases layout with
  | leaf id held => rfl
  | object id children =>
      simp [content, Content.children, kids, Entries.values, Function.comp_def]
  | array id items => rfl

/-- The child of the topmost node under a key. -/
theorem get?_ids (children : List (String × Layout)) (key : String) :
    Entries.get? (children.map fun entry => (entry.1, entry.2.id)) key =
      (Entries.get? children key).map id :=
  Entries.get?_map_values id children key

theorem content_insert (top : NodeId) (children : List (String × Layout)) (key : String)
    (added : Layout) : (object top (Entries.insert children key added)).content =
      .object (Entries.insert (children.map fun entry => (entry.1, entry.2.id)) key added.id) := by
  rw [content, Entries.insert_map_values id]

/-- A layout below another has fewer ids. -/
theorem length_ids_lt_of_mem_kids {layout kid : Layout} (member : kid ∈ layout.kids) :
    kid.ids.length < layout.ids.length := by
  obtain ⟨before, after, split⟩ := List.append_of_mem member
  rw [ids_eq layout, split, idsOf_append, idsOf_cons]
  simp only [List.length_cons, List.length_append]
  omega

/-- The ids of a layout below another are distinct if those of the whole are. -/
theorem nodup_of_mem_kids {layout kid : Layout} (distinct : layout.ids.Nodup)
    (member : kid ∈ layout.kids) : kid.ids.Nodup := by
  obtain ⟨before, after, split⟩ := List.append_of_mem member
  rw [ids_eq layout, split, idsOf_append, idsOf_cons] at distinct
  exact (List.nodup_append.1 (List.nodup_append.1 (List.nodup_cons.1 distinct).2).1).2.1

/-- The topmost node is not among those below. -/
theorem id_not_mem_of_mem_kids {layout kid : Layout} (distinct : layout.ids.Nodup)
    (member : kid ∈ layout.kids) : layout.id ∉ kid.ids := by
  intro repeated
  rw [ids_eq, List.nodup_cons] at distinct
  exact distinct.1 (mem_idsOf.2 ⟨kid, member, repeated⟩)

end Layout

namespace Model

/-- The model holds a layout below a parent: each of its nodes is there, has what the layout says
and points to the node above it. -/
inductive Holds (model : Model) : Option NodeId → Layout → Prop where
  | intro {parent : Option NodeId} {layout : Layout}
      (here : model.node? layout.id = some ⟨parent, layout.content⟩)
      (distinctKeys : layout.content.keys.Nodup)
      (below : ∀ kid ∈ layout.kids, Holds model (some layout.id) kid) :
      Holds model parent layout

namespace Holds

variable {model after : Model} {parent : Option NodeId} {layout : Layout}

theorem here (holds : model.Holds parent layout) :
    model.node? layout.id = some ⟨parent, layout.content⟩ := by
  cases holds with
  | intro here _ _ => exact here

theorem distinctKeys (holds : model.Holds parent layout) : layout.content.keys.Nodup := by
  cases holds with
  | intro _ distinctKeys _ => exact distinctKeys

theorem kid_holds (holds : model.Holds parent layout) {kid : Layout} (member : kid ∈ layout.kids) :
    model.Holds (some layout.id) kid := by
  cases holds with
  | intro _ _ below => exact below kid member

theorem content?_eq (holds : model.Holds parent layout) :
    model.content? layout.id = some layout.content := by
  simp [content?, holds.here]

theorem live (holds : model.Holds parent layout) {id : NodeId} (member : id ∈ layout.ids) :
    model.contains id := by
  induction holds with
  | @intro parent layout here _ _ induction_step =>
      rcases Layout.mem_ids.1 member with rfl | ⟨kid, is_kid, in_kid⟩
      · simp [contains, here]
      · exact induction_step kid is_kid in_kid

/-- Whether a layout is held depends on its own nodes only. -/
theorem transport (holds : model.Holds parent layout)
    (same : ∀ id ∈ layout.ids, after.node? id = model.node? id) : after.Holds parent layout := by
  induction holds with
  | @intro parent layout here distinctKeys _ induction_step =>
      refine .intro ?_ distinctKeys fun kid is_kid => ?_
      · rw [same _ layout.id_mem_ids, here]
      · exact induction_step kid is_kid fun id in_kid =>
          same id (Layout.ids_subset_of_mem_kids is_kid in_kid)

/-- A layout that a change leaves alone is still held. -/
theorem unchanged {old new : List NodeId} (holds : model.Holds parent layout)
    (change : Changes model after old new) (apart : ∀ id ∈ layout.ids, id ∉ old) :
    after.Holds parent layout := by
  apply holds.transport
  intro id member
  obtain ⟨node, node_eq⟩ := Option.isSome_iff_exists.1 (holds.live member)
  rw [change.keeps node_eq (apart id member), node_eq]

/-- With as many steps as there are ids, reading a layout's nodes off the model gives its tree. -/
theorem treeWithin_eq (holds : model.Holds parent layout) {depth : Nat}
    (enough : layout.ids.length ≤ depth) : model.treeWithin depth layout.id = layout.tree := by
  induction holds generalizing depth with
  | @intro parent layout here _ _ induction_step =>
      have content_eq : model.content? layout.id = some layout.content := by
        simp [content?, here]
      have kid_tree : ∀ kid ∈ layout.kids, ∀ rest, layout.ids.length ≤ rest + 1 →
          model.treeWithin rest kid.id = kid.tree := by
        intro kid is_kid rest enough
        have shorter := Layout.length_ids_lt_of_mem_kids is_kid
        exact induction_step kid is_kid (by omega)
      cases depth with
      | zero => simp [Layout.ids_eq layout] at enough
      | succ depth =>
          rw [treeWithin, content_eq]
          cases layout with
          | leaf id held => rfl
          | object id children =>
              simp only [Layout.content, Layout.tree, Layout.childTrees_eq_map, List.map_map]
              congr 1
              apply List.map_congr_left
              intro entry member
              have is_kid : entry.2 ∈ (Layout.object id children).kids :=
                List.mem_map_of_mem member
              simp [kid_tree entry.2 is_kid depth enough]
          | array id items =>
              simp only [Layout.content, Layout.tree, Layout.itemTrees_eq_map, List.map_map]
              congr 1
              exact List.map_congr_left fun item member => kid_tree item member depth enough

/-- Collecting the nodes below a held layout gives its ids. -/
theorem subtreeWithin_eq (holds : model.Holds parent layout) {depth : Nat}
    (enough : layout.ids.length ≤ depth) : model.subtreeWithin depth layout.id = layout.ids := by
  induction holds generalizing depth with
  | @intro parent layout here _ _ induction_step =>
      cases depth with
      | zero => simp [Layout.ids_eq layout] at enough
      | succ depth =>
          rw [subtreeWithin, here]
          simp only [Layout.children_content, Layout.ids_eq layout, Layout.idsOf,
            ← List.map_reverse, List.flatMap_map]
          congr 1
          apply List.flatMap_congr
          intro kid member
          have is_kid : kid ∈ layout.kids := List.mem_reverse.1 member
          have shorter := Layout.length_ids_lt_of_mem_kids is_kid
          exact induction_step kid is_kid (by omega)

theorem length_le_slots (holds : model.Holds parent layout) (distinct : layout.ids.Nodup) :
    layout.ids.length ≤ model.slots.size :=
  Model.length_le_slots distinct fun _ => holds.live

theorem treeOf_eq (holds : model.Holds parent layout) (distinct : layout.ids.Nodup) :
    model.treeOf layout.id = layout.tree :=
  holds.treeWithin_eq (holds.length_le_slots distinct)

theorem subtree_eq (holds : model.Holds parent layout) (distinct : layout.ids.Nodup) :
    model.subtree layout.id = layout.ids :=
  holds.subtreeWithin_eq (holds.length_le_slots distinct)

end Holds

end Model

end VesselHub
