/-
Module: VesselHub.Proofs.Model.Replace
Purpose: Replacing a stored layout by another one in place. A step below a node is a replacement of
  the layout at that node, and it lifts to every layout around it.
Main exports: Model.Stores, Model.Replaces, Model.Replaces.lift, Model.Builds,
  Model.replaces_rewired, Model.replaces_makeObject
-/
import VesselHub.Proofs.Model.Layout
import VesselHub.Tree.Merge

namespace VesselHub

namespace Layout

/-- The ids around one of the layouts right below, and the ids of that layout. -/
theorem ids_perm_of_split {layout inner : Layout} (left right : List Layout)
    (split : layout.kids = left ++ inner :: right) :
    layout.ids.Perm ((layout.id :: (idsOf right ++ idsOf left)) ++ inner.ids) := by
  rw [ids_eq, split, idsOf_append, idsOf_cons, List.cons_append]
  apply List.Perm.cons
  rw [List.append_assoc, List.append_assoc]
  exact List.Perm.append_left _ List.perm_append_comm

theorem kids_object_split (id : NodeId) (before after : List (String × Layout)) (key : String)
    (child : Layout) : (object id (before ++ (key, child) :: after)).kids =
      Entries.values before ++ child :: Entries.values after := by
  simp [kids, Entries.values]

/-- What `insert` does to the ids of an object: the ids of the inserted layout come in, and those
of the layout that it replaces go out. -/
theorem ids_insert_perm (id : NodeId) (children : List (String × Layout)) (key : String)
    (added : Layout) :
    ((object id children).ids ++ added.ids).Perm
      ((object id (Entries.insert children key added)).ids ++
        idsOf (Entries.get? children key).toList) := by
  cases found : Entries.get? children key with
  | none =>
      have absent := (Entries.get?_eq_none_iff children key).1 found
      rw [Entries.insert_of_not_mem absent]
      have perm := ids_perm_of_split _ _ (kids_object_split id children [] key added)
      simpa [ids_eq, kids, Entries.values] using perm.symm
  | some replaced =>
      obtain ⟨before, after, rfl, absent⟩ := Entries.exists_split_of_get? found
      rw [Entries.insert_of_split absent]
      have perm := ids_perm_of_split _ _ (kids_object_split id before after key replaced)
      have perm' := ids_perm_of_split _ _ (kids_object_split id before after key added)
      refine (perm.append_right added.ids).trans (List.Perm.trans ?_ (perm'.symm.append_right _))
      simp only [Option.toList_some, idsOf_singleton, List.append_assoc]
      exact List.Perm.append_left _ List.perm_append_comm

/-- What `erase` does to the ids of an object: those of the child go out. -/
theorem ids_erase_perm {children : List (String × Layout)} {key : String} {child : Layout}
    (id : NodeId) (found : Entries.get? children key = some child) :
    (object id children).ids.Perm
      ((object id (Entries.erase children key)).ids ++ child.ids) := by
  obtain ⟨before, after, rfl, absent⟩ := Entries.exists_split_of_get? found
  rw [Entries.erase_of_split absent]
  have perm := ids_perm_of_split _ _ (kids_object_split id before after key child)
  simpa [ids_eq, kids, Entries.values, idsOf_append] using perm

/-- An object in place of a layout: what is no object holds nothing. -/
def asObject : Layout → Layout
  | .object id children => .object id children
  | .array id _ => .object id []
  | .leaf id _ => .object id []

/-- The entries of an object; other layouts have none. -/
def entries : Layout → List (String × Layout)
  | .object _ children => children
  | _ => []

theorem asObject_eq (layout : Layout) : layout.asObject = .object layout.id layout.entries := by
  cases layout <;> rfl

theorem childTrees_entries (layout : Layout) :
    childTrees layout.entries = layout.tree.childrenOf := by
  cases layout <;> rfl

end Layout

namespace Model

/-- The model holds a layout, no node of it twice, and its free list is exact. -/
structure Stores (model : Model) (parent : Option NodeId) (layout : Layout) : Prop where
  holds : model.Holds parent layout
  distinct : layout.ids.Nodup
  freeExact : model.FreeExact

/-- The second model stores `new` in the place where the first one stores `old`, and nothing else
differs. -/
structure Replaces (before after : Model) (parent : Option NodeId) (old new : Layout) : Prop where
  same_id : new.id = old.id
  stores : after.Stores parent new
  change : Changes before after old.ids new.ids

/-- Nodes that are there and not replaced are not among those put in their place. -/
theorem Changes.apart {before after : Model} {old new kept : List NodeId}
    (change : Changes before after old new) (live : ∀ id ∈ kept, before.contains id)
    (apart : ∀ id ∈ kept, id ∉ old) : ∀ id ∈ kept, id ∉ new := by
  intro id is_kept is_new
  have absent := change.fresh id is_new (apart id is_kept)
  have present := live id is_kept
  simp [contains, absent] at present

namespace Stores

variable {model : Model} {parent : Option NodeId} {layout : Layout}

theorem kid (stored : model.Stores parent layout) {kid : Layout} (member : kid ∈ layout.kids) :
    model.Stores (some layout.id) kid where
  holds := stored.holds.kid_holds member
  distinct := Layout.nodup_of_mem_kids stored.distinct member
  freeExact := stored.freeExact

theorem tree_eq (stored : model.Stores parent layout) : model.treeOf layout.id = layout.tree :=
  stored.holds.treeOf_eq stored.distinct

theorem unchanged {after : Model} {old new : List NodeId} (stored : model.Stores parent layout)
    (change : Changes model after old new) (apart : ∀ id ∈ layout.ids, id ∉ old) :
    after.Stores parent layout where
  holds := stored.holds.unchanged change apart
  distinct := stored.distinct
  freeExact := change.freeExact

theorem replaces_refl (stored : model.Stores parent layout) :
    Replaces model model parent layout layout where
  same_id := rfl
  stores := stored
  change := .refl stored.freeExact _

end Stores

namespace Replaces

variable {first second third : Model} {parent : Option NodeId} {old middle new : Layout}

theorem trans (one : Replaces first second parent old middle)
    (two : Replaces second third parent middle new) : Replaces first third parent old new where
  same_id := two.same_id.trans one.same_id
  stores := two.stores
  change := one.change.trans two.change

/-- A replacement below a node is a replacement at the node. -/
theorem lift {whole whole' inner inner' : Layout} (left right : List Layout)
    (stored : first.Stores parent whole) (split : whole.kids = left ++ inner :: right)
    (split' : whole'.kids = left ++ inner' :: right) (same_id : whole'.id = whole.id)
    (same_content : whole'.content = whole.content)
    (replaced : Replaces first second (some whole.id) inner inner') :
    Replaces first second parent whole whole' := by
  have perm := Layout.ids_perm_of_split left right split
  have perm' := Layout.ids_perm_of_split left right split'
  rw [same_id] at perm'
  generalize around_eq : whole.id :: (Layout.idsOf right ++ Layout.idsOf left) = around
    at perm perm'
  have around_mem : ∀ kid ∈ left ++ right, ∀ id ∈ kid.ids, id ∈ around := by
    intro kid is_kid id in_kid
    rw [← around_eq, List.mem_cons, List.mem_append, Layout.mem_idsOf, Layout.mem_idsOf]
    rcases List.mem_append.1 is_kid with on_left | on_right
    · exact Or.inr (Or.inr ⟨kid, on_left, in_kid⟩)
    · exact Or.inr (Or.inl ⟨kid, on_right, in_kid⟩)
  have nodup_parts := List.nodup_append.1 (perm.nodup_iff.1 stored.distinct)
  have apart : ∀ id ∈ around, id ∉ inner.ids := fun id in_around in_inner =>
    nodup_parts.2.2 id in_around id in_inner rfl
  have live : ∀ id ∈ around, first.contains id := fun id in_around =>
    stored.holds.live (perm.mem_iff.2 (List.mem_append_left _ in_around))
  have apart' := replaced.change.apart live apart
  have id_around : whole.id ∈ around := by simp [← around_eq]
  refine ⟨same_id, ⟨?_, ?_, replaced.change.freeExact⟩, ?_⟩
  · -- The node itself and the layouts beside the replaced one are not touched.
    refine .intro ?_ (same_content ▸ stored.holds.distinctKeys) fun kid is_kid => ?_
    · rw [same_id, same_content]
      exact replaced.change.keeps stored.holds.here (apart _ id_around)
    · rw [same_id]
      rw [split', List.mem_append, List.mem_cons] at is_kid
      by_cases is_inner : kid = inner'
      · rw [is_inner]
        exact replaced.stores.holds
      · have beside : kid ∈ left ++ right := by
          rw [List.mem_append]
          exact is_kid.imp id fun or_right => or_right.resolve_left is_inner
        have was_kid : kid ∈ whole.kids := by
          rw [split, List.mem_append, List.mem_cons]
          exact (List.mem_append.1 beside).imp id Or.inr
        exact (stored.holds.kid_holds was_kid).unchanged replaced.change fun id in_kid =>
          apart id (around_mem kid beside id in_kid)
  · rw [perm'.nodup_iff, List.nodup_append]
    refine ⟨nodup_parts.1, replaced.stores.distinct, ?_⟩
    intro id in_around other in_inner same
    exact apart' id in_around (same ▸ in_inner)
  · exact (replaced.change.append around).congr (fun _ => perm.mem_iff) fun _ => perm'.mem_iff

/-- A replacement below a key of an object. -/
theorem lift_key {id : NodeId} {children : List (String × Layout)} {key : String}
    {inner inner' : Layout} (stored : first.Stores parent (.object id children))
    (found : Entries.get? children key = some inner)
    (replaced : Replaces first second (some id) inner inner') :
    Replaces first second parent (.object id children)
      (.object id (Entries.insert children key inner')) := by
  obtain ⟨before, after, rfl, absent⟩ := Entries.exists_split_of_get? found
  rw [Entries.insert_of_split absent]
  refine lift _ _ stored (Layout.kids_object_split ..) (Layout.kids_object_split ..) rfl ?_ replaced
  simp [Layout.content, replaced.same_id]

end Replaces

/-! ### Removing nodes -/

/-- Removing a stored layout empties the slots of its nodes. -/
theorem changes_release {model : Model} {parent : Option NodeId} {layout : Layout}
    (stored : model.Stores parent layout) :
    Changes model (model.release layout.id) layout.ids [] := by
  have vacated : ∀ (ids : List NodeId) (model : Model), model.FreeExact →
      Changes model (ids.foldl vacate model) ids [] := by
    intro ids
    induction ids with
    | nil => exact fun model exact => .refl exact []
    | cons id ids induction_step =>
        intro model exact
        have one := changes_vacate exact id
        have others := induction_step (model.vacate id) one.freeExact
        have first := one.append ids
        rw [List.append_nil] at first
        exact (first.trans others).congr (fun _ => by simp [or_comm]) fun _ => Iff.rfl
  rw [release, stored.holds.subtree_eq stored.distinct]
  exact vacated layout.ids model stored.freeExact

/-- Removing several stored layouts one after the other. -/
theorem changes_releaseAll (layouts : List Layout) {parent : Option NodeId} {model : Model}
    (exact : model.FreeExact) (held : ∀ layout ∈ layouts, model.Holds parent layout)
    (distinct : (Layout.idsOf layouts).Nodup) :
    Changes model ((layouts.map Layout.id).foldl release model) (Layout.idsOf layouts) [] := by
  induction layouts generalizing model with
  | nil => exact .refl exact []
  | cons layout layouts induction_step =>
      rw [Layout.idsOf_cons, List.nodup_append] at distinct
      obtain ⟨distinct_others, distinct_first, apart⟩ := distinct
      have one := changes_release ⟨held layout (by simp), distinct_first, exact⟩
      have others := induction_step one.freeExact
        (fun other member =>
          (held other (by simp [member])).unchanged one fun id in_other in_first =>
            apart id (Layout.mem_idsOf.2 ⟨other, member, in_other⟩) id in_first rfl)
        distinct_others
      have first := one.append (Layout.idsOf layouts)
      rw [List.append_nil] at first
      rw [Layout.idsOf_cons]
      exact first.trans others

/-! ### Giving a node other contents -/

/-- A node that gets the contents of a layout, the parts of which are held below it, holds that
layout. -/
theorem holds_setContent {model : Model} {parent : Option NodeId} {content : Content}
    (layout : Layout) (live : model.node? layout.id = some ⟨parent, content⟩)
    (distinctKeys : layout.content.keys.Nodup)
    (held : ∀ kid ∈ layout.kids, model.Holds (some layout.id) kid ∧ layout.id ∉ kid.ids) :
    (model.setContent layout.id layout.content).Holds parent layout := by
  refine .intro (node?_setContent live _) distinctKeys fun kid is_kid => ?_
  obtain ⟨kid_held, apart⟩ := held kid is_kid
  apply kid_held.transport
  intro id in_kid
  have differs : id ≠ layout.id := fun same => apart (same ▸ in_kid)
  rw [setContent, node?_modifyNode, if_neg differs]

/-! ### Building new nodes -/

/-- Layouts that were built side by side below a parent, out of new nodes. -/
structure Builds (before after : Model) (parent : Option NodeId) (built : List Layout) : Prop where
  change : Changes before after [] (Layout.idsOf built)
  distinct : (Layout.idsOf built).Nodup
  holds : ∀ layout ∈ built, after.Holds parent layout

namespace Builds

variable {first second third : Model} {parent : Option NodeId} {built more : List Layout}

theorem nil {model : Model} (exact : model.FreeExact) (parent : Option NodeId) :
    Builds model model parent [] where
  change := .refl exact []
  distinct := List.nodup_nil
  holds _ member := absurd member (by simp)

theorem append (one : Builds first second parent built) (two : Builds second third parent more) :
    Builds first third parent (built ++ more) where
  change := by
    rw [Layout.idsOf_append]
    have grown := two.change.append (Layout.idsOf built)
    rw [List.append_nil] at grown
    exact (one.change.trans grown).congr (fun _ => Iff.rfl) fun _ => by simp [or_comm]
  distinct := by
    rw [Layout.idsOf_append, List.nodup_append]
    refine ⟨two.distinct, one.distinct, ?_⟩
    rintro id in_more other in_built rfl
    obtain ⟨layout, member, in_layout⟩ := Layout.mem_idsOf.1 in_built
    have live : ∀ id ∈ layout.ids, second.contains id := fun id =>
      (one.holds layout member).live
    exact two.change.apart live (fun _ _ => List.not_mem_nil) id in_layout in_more
  holds layout member := by
    rcases List.mem_append.1 member with in_built | in_more
    · exact (one.holds layout in_built).unchanged two.change fun _ _ => by simp
    · exact two.holds layout in_more

theorem stores (builds : Builds first second parent built) {layout : Layout}
    (member : layout ∈ built) : second.Stores parent layout where
  holds := builds.holds layout member
  distinct := by
    obtain ⟨before, after, rfl⟩ := List.append_of_mem member
    have distinct := builds.distinct
    rw [Layout.idsOf_append, Layout.idsOf_cons] at distinct
    exact (List.nodup_append.1 (List.nodup_append.1 distinct).1).2.1
  freeExact := builds.change.freeExact

/-- A new node below which layouts were built gets them as its contents. -/
theorem fill (layout : Layout) {content : Content}
    (born : Changes first second [] [layout.id])
    (live : second.node? layout.id = some ⟨parent, content⟩)
    (built : Builds second third (some layout.id) layout.kids)
    (distinctKeys : layout.content.keys.Nodup) :
    Builds first (third.setContent layout.id layout.content) parent [layout] := by
  have apart : layout.id ∉ Layout.idsOf layout.kids := by
    intro in_kids
    rw [built.change.fresh _ in_kids (by simp)] at live
    exact absurd live (by simp)
  have filling := changes_setContent built.change.freeExact layout.id layout.content
  have grown := built.change.append [layout.id]
  rw [List.append_nil] at grown
  refine ⟨?_, ?_, ?_⟩
  · have filling' := filling.widen ([layout.id] ++ Layout.idsOf layout.kids) (by simp)
    apply ((born.trans grown).trans filling').congr (fun _ => Iff.rfl)
    intro other
    simp [Layout.idsOf, Layout.ids_eq layout]
  · have distinct : layout.ids.Nodup := by
      rw [Layout.ids_eq, List.nodup_cons]
      exact ⟨apart, built.distinct⟩
    simpa [Layout.idsOf] using distinct
  · intro other member
    rw [List.mem_singleton.1 member]
    have still_live := built.change.keeps live (by simp)
    exact holds_setContent layout still_live distinctKeys fun kid is_kid =>
      ⟨built.holds kid is_kid, fun in_kid => apart (Layout.mem_idsOf.2 ⟨kid, is_kid, in_kid⟩)⟩

end Builds

/-! ### Rewiring a node -/

/-- A node gets other contents. What is below it then was below it before or has been built, and
what is no longer below it is removed. -/
theorem replaces_rewired {first second : Model} {parent : Option NodeId} {layout left : Layout}
    {built gone : List Layout} (stored : first.Stores parent layout)
    (builds : Builds first second (some layout.id) built) (same_id : left.id = layout.id)
    (distinctKeys : left.content.keys.Nodup)
    (kids : ∀ kid ∈ left.kids, kid ∈ layout.kids ∨ kid ∈ built)
    (gone_kids : ∀ kid ∈ gone, kid ∈ layout.kids)
    (perm : (layout.ids ++ Layout.idsOf built).Perm (left.ids ++ Layout.idsOf gone)) :
    Replaces first
      ((gone.map Layout.id).foldl release (second.setContent layout.id left.content))
      parent layout left := by
  have before : second.Stores parent layout :=
    stored.unchanged builds.change fun _ _ => List.not_mem_nil
  have built_apart : ∀ id ∈ layout.ids, id ∉ Layout.idsOf built :=
    builds.change.apart (fun id member => stored.holds.live member) fun _ _ => List.not_mem_nil
  have distinct : (layout.ids ++ Layout.idsOf built).Nodup := by
    rw [List.nodup_append]
    refine ⟨stored.distinct, builds.distinct, ?_⟩
    rintro id in_layout other in_built rfl
    exact built_apart id in_layout in_built
  obtain ⟨left_distinct, gone_distinct, left_apart⟩ :=
    List.nodup_append.1 (perm.nodup_iff.1 distinct)
  have listing : Changes second (second.setContent layout.id left.content) [layout.id]
      [layout.id] := changes_setContent before.freeExact layout.id _
  -- The node lists what is below it now.
  have listed : (second.setContent layout.id left.content).Holds parent left := by
    have live := before.holds.here
    rw [← same_id] at live ⊢
    refine holds_setContent left live distinctKeys fun kid is_kid => ⟨?_, ?_⟩
    · rw [same_id]
      rcases kids kid is_kid with was_kid | is_built
      · exact before.holds.kid_holds was_kid
      · exact builds.holds kid is_built
    · exact Layout.id_not_mem_of_mem_kids left_distinct is_kid
  -- Then the others are removed.
  have held : ∀ kid ∈ gone,
      (second.setContent layout.id left.content).Holds (some layout.id) kid := by
    intro kid is_gone
    apply (before.holds.kid_holds (gone_kids kid is_gone)).unchanged listing
    intro id in_kid is_id
    rw [List.mem_singleton.1 is_id] at in_kid
    exact Layout.id_not_mem_of_mem_kids stored.distinct (gone_kids kid is_gone) in_kid
  have removing := changes_releaseAll gone listing.freeExact held gone_distinct
  refine ⟨same_id, ⟨?_, left_distinct, removing.freeExact⟩, ?_⟩
  · apply listed.unchanged removing
    intro id in_left in_gone
    exact left_apart id in_left id in_gone rfl
  · have born := builds.change.append layout.ids
    have listing_all := listing.widen (layout.ids ++ Layout.idsOf built) fun id is_id => by
      simp [List.mem_singleton.1 is_id, layout.id_mem_ids]
    have removing_all := removing.append left.ids
    rw [List.append_nil] at born removing_all
    exact (born.trans listing_all).trans
      (removing_all.congr (fun _ => perm.mem_iff) fun _ => Iff.rfl)

/-- A leaf gets another value. -/
theorem replaces_content {model : Model} {parent : Option NodeId} {id : NodeId} {held : Leaf}
    (stored : model.Stores parent (.leaf id held)) (leaf : Leaf) :
    Replaces model (model.setContent id (.leaf leaf)) parent (.leaf id held)
      (.leaf id leaf) where
  same_id := rfl
  stores := {
    holds := holds_setContent (.leaf id leaf) stored.holds.here (by simp [Layout.content,
      Content.keys]) (by simp [Layout.kids])
    distinct := by simp [Layout.ids]
    freeExact := freeExact_modifyNode stored.freeExact id _ }
  change := by simpa [Layout.ids] using changes_setContent stored.freeExact id _

/-- A node becomes an empty object, and what was below it is removed. -/
theorem replaces_emptied {model : Model} {parent : Option NodeId} {layout : Layout}
    (stored : model.Stores parent layout) :
    Replaces model
      ((layout.kids.map Layout.id).foldl release (model.setContent layout.id (.object [])))
      parent layout (.object layout.id []) := by
  have nothing_built := Builds.nil stored.freeExact (some layout.id)
  have same_id : (Layout.object layout.id []).id = layout.id := rfl
  refine replaces_rewired stored nothing_built same_id List.nodup_nil (fun kid member => ?_)
    (fun kid member => member) ?_
  · cases member
  · rw [Layout.ids_eq layout]
    simp [Layout.ids, Layout.childIds]

theorem replaces_makeObject {model : Model} {parent : Option NodeId} {layout : Layout}
    (stored : model.Stores parent layout) :
    Replaces model (model.makeObject layout.id) parent layout layout.asObject := by
  have content_eq := stored.holds.content?_eq
  have emptied := replaces_emptied stored
  cases layout with
  | object id children =>
      have unchanged : model.makeObject id = model := by
        simp only [Layout.id_object, Layout.content] at content_eq
        simp [makeObject, content_eq]
      simpa only [Layout.id_object, Layout.asObject, unchanged] using stored.replaces_refl
  | leaf id held =>
      have made : model.makeObject id = model.setContent id (.object []) := by
        simp only [Layout.id_leaf, Layout.content] at content_eq
        simp [makeObject, content_eq]
      simp only [Layout.id_leaf, Layout.asObject, made]
      exact emptied
  | array id items =>
      have made : model.makeObject id =
          (items.map Layout.id).foldl release (model.setContent id (.object [])) := by
        simp only [Layout.id_array, Layout.content] at content_eq
        simp [makeObject, content_eq]
      simp only [Layout.id_array, Layout.asObject, made]
      exact emptied

end Model

end VesselHub
