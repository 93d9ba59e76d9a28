/-
Module: VesselHub.Proofs.Model.Place
Purpose: Where a node stands below another, by the positions among the children that lead to it.
  A replacement at the node is a replacement of the whole, and changes the tree at that place only.
Main exports: Tree.changeAtPlace, Model.descend?, Layout.Leads, Model.stores_of_leads
-/
import VesselHub.Proofs.Model.Merge

namespace VesselHub

/-- Applies a change to the branch at a place: at each step the position among the children. -/
def Tree.changeAtPlace (tree : Tree) (places : List Nat) (change : Tree → Tree) : Tree :=
  match places with
  | [] => change tree
  | place :: places =>
      match tree with
      | .object children =>
          .object (children.modify place fun entry =>
            (entry.1, changeAtPlace entry.2 places change))
      | .array items => .array (items.modify place fun item => changeAtPlace item places change)
      | .leaf held => .leaf held

/-- The node at a place below another. -/
def Model.descend? (model : Model) (id : NodeId) : List Nat → Option NodeId
  | [] => if model.contains id then some id else none
  | place :: places =>
      (model.content? id).bind fun content =>
        content.children[place]?.bind fun child => model.descend? child places

namespace Layout

/-- The positions among the children that lead from a layout to one below it. -/
inductive Leads : Layout → List Nat → Layout → Prop where
  | here (layout : Layout) : Leads layout [] layout
  | step {layout inner target : Layout} {place : Nat} {places : List Nat}
      (kid : layout.kids[place]? = some inner) (rest : Leads inner places target) :
      Leads layout (place :: places) target

/-- The layout with another one at a position right below. -/
def setKid (layout : Layout) (place : Nat) (inner : Layout) : Layout :=
  match layout with
  | .leaf id held => .leaf id held
  | .object id children => .object id (children.modify place fun entry => (entry.1, inner))
  | .array id items => .array id (items.set place inner)

theorem kids_setKid (layout : Layout) (place : Nat) (inner : Layout) :
    (layout.setKid place inner).kids = layout.kids.set place inner := by
  cases layout with
  | leaf id held => rfl
  | array id items => rfl
  | object id children =>
      simp only [setKid, kids, Entries.values]
      apply List.ext_getElem?
      intro index
      simp only [List.getElem?_map, List.getElem?_modify, List.getElem?_set, List.length_map]
      by_cases same : place = index
      · subst same
        by_cases within : place < children.length <;> simp [within]
      · simp [same]

theorem id_setKid (layout : Layout) (place : Nat) (inner : Layout) :
    (layout.setKid place inner).id = layout.id := by
  cases layout <;> rfl

theorem content_setKid {layout inner inner' : Layout} {place : Nat}
    (kid : layout.kids[place]? = some inner) (same_id : inner'.id = inner.id) :
    (layout.setKid place inner').content = layout.content := by
  cases layout with
  | leaf id held => rfl
  | array id items =>
      simp only [setKid, content, kids] at kid ⊢
      congr 1
      apply List.ext_getElem?
      intro index
      simp only [List.getElem?_map, List.getElem?_set]
      by_cases same : place = index
      · subst same
        obtain ⟨within, rfl⟩ := List.getElem?_eq_some_iff.1 kid
        simp [within, same_id]
      · simp [same]
  | object id children =>
      simp only [setKid, content, kids, Entries.values, List.getElem?_map] at kid ⊢
      congr 1
      apply List.ext_getElem?
      intro index
      simp only [List.getElem?_map, List.getElem?_modify]
      by_cases same : place = index
      · subst same
        obtain ⟨entry, entry_eq, rfl⟩ := Option.map_eq_some_iff.1 kid
        simp [entry_eq, same_id]
      · simp [same]

theorem tree_setKid {layout inner inner' : Layout} {place : Nat} {places : List Nat}
    {change : Tree → Tree} (kid : layout.kids[place]? = some inner)
    (tree_eq : inner'.tree = inner.tree.changeAtPlace places change) :
    (layout.setKid place inner').tree = layout.tree.changeAtPlace (place :: places) change := by
  cases layout with
  | leaf id held => rfl
  | array id items =>
      simp only [setKid, tree, kids, itemTrees_eq_map, Tree.changeAtPlace] at kid ⊢
      congr 1
      apply List.ext_getElem?
      intro index
      simp only [List.getElem?_map, List.getElem?_set, List.getElem?_modify]
      by_cases same : place = index
      · subst same
        obtain ⟨within, rfl⟩ := List.getElem?_eq_some_iff.1 kid
        simp [within, tree_eq]
      · simp [same]
  | object id children =>
      simp only [setKid, tree, kids, Entries.values, childTrees_eq_map, Tree.changeAtPlace,
        List.getElem?_map] at kid ⊢
      congr 1
      apply List.ext_getElem?
      intro index
      simp only [List.getElem?_map, List.getElem?_modify]
      by_cases same : place = index
      · subst same
        obtain ⟨entry, entry_eq, rfl⟩ := Option.map_eq_some_iff.1 kid
        simp [entry_eq, tree_eq]
      · simp [same]

/-- Every id of a layout stands at some place in it. -/
theorem exists_leads {layout : Layout} {id : NodeId} (member : id ∈ layout.ids) :
    ∃ places target, layout.Leads places target ∧ target.id = id := by
  rcases mem_ids.1 member with rfl | ⟨kid, is_kid, in_kid⟩
  · exact ⟨[], layout, .here layout, rfl⟩
  · obtain ⟨places, target, leads, target_id⟩ := exists_leads in_kid
    obtain ⟨place, within, kid_eq⟩ := List.getElem_of_mem is_kid
    refine ⟨place :: places, target, .step ?_ leads, target_id⟩
    rw [List.getElem?_eq_getElem within, kid_eq]
termination_by layout.ids.length
decreasing_by exact length_ids_lt_of_mem_kids is_kid

end Layout

namespace Model

variable {model : Model} {parent : Option NodeId} {layout target : Layout}

/-- A replacement right below a node, at a position among its children. -/
theorem Replaces.lift_place {after : Model} {inner inner' : Layout} {place : Nat}
    (stored : model.Stores parent layout) (kid : layout.kids[place]? = some inner)
    (replaced : Replaces model after (some layout.id) inner inner') :
    Replaces model after parent layout (layout.setKid place inner') := by
  obtain ⟨within, kid_eq⟩ := List.getElem?_eq_some_iff.1 kid
  refine replaced.lift (layout.kids.take place) (layout.kids.drop (place + 1)) stored ?_ ?_
    (Layout.id_setKid ..) (Layout.content_setKid kid replaced.same_id)
  · rw [← kid_eq, ← List.drop_eq_getElem_cons within, List.take_append_drop]
  · rw [Layout.kids_setKid, List.set_eq_take_append_cons_drop, if_pos within]

/-- A layout below a stored one is stored, and replacing it replaces the whole. -/
theorem stores_of_leads {places : List Nat} (leads : layout.Leads places target)
    (stored : model.Stores parent layout) :
    ∃ above, model.Stores above target ∧ ∀ {after : Model} {new : Layout} (change : Tree → Tree),
      Replaces model after above target new → new.tree = change target.tree →
        ∃ whole, Replaces model after parent layout whole ∧
          whole.tree = layout.tree.changeAtPlace places change := by
  induction leads generalizing parent with
  | here layout =>
      exact ⟨parent, stored, fun _ replaced tree_eq => ⟨_, replaced, tree_eq⟩⟩
  | @step layout inner target place places kid rest induction_step =>
      obtain ⟨above, target_stored, lifts⟩ :=
        induction_step (stored.kid (List.mem_of_getElem? kid))
      refine ⟨above, target_stored, fun change replaced tree_eq => ?_⟩
      obtain ⟨inner', inner_replaced, inner_tree⟩ := lifts change replaced tree_eq
      exact ⟨_, inner_replaced.lift_place stored kid, Layout.tree_setKid kid inner_tree⟩

theorem descend?_of_leads {places : List Nat} (leads : layout.Leads places target)
    (stored : model.Stores parent layout) :
    model.descend? layout.id places = some target.id := by
  induction leads generalizing parent with
  | here layout => simp [descend?, stored.holds.live layout.id_mem_ids]
  | @step layout inner target place places kid rest induction_step =>
      have inner_eq := induction_step (stored.kid (List.mem_of_getElem? kid))
      simp [descend?, stored.holds.content?_eq, Layout.children_content, kid, inner_eq]

theorem leads_of_descend? {places : List Nat} {id : NodeId}
    (stored : model.Stores parent layout) (found : model.descend? layout.id places = some id) :
    ∃ target, layout.Leads places target ∧ target.id = id := by
  induction places generalizing layout parent with
  | nil =>
      simp only [descend?, stored.holds.live layout.id_mem_ids, if_true,
        Option.some.injEq] at found
      exact ⟨layout, .here layout, found⟩
  | cons place places induction_step =>
      simp only [descend?, stored.holds.content?_eq, Layout.children_content, Option.bind_some,
        List.getElem?_map] at found
      cases kid : layout.kids[place]? with
      | none => simp [kid] at found
      | some inner =>
          simp only [kid, Option.map_some, Option.bind_some] at found
          obtain ⟨target, leads, target_id⟩ :=
            induction_step (stored.kid (List.mem_of_getElem? kid)) found
          exact ⟨target, .step kid leads, target_id⟩

end Model

end VesselHub
