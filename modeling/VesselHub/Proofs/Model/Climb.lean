/-
Module: VesselHub.Proofs.Model.Climb
Purpose: The path of a node is found by climbing from parent to parent. It is the keys that the node
  stands at below the root.
Main exports: Layout.standsAt_append, Model.Holds.keyOf?_eq, Model.Holds.climb_eq,
  Model.Intact.pathOf?_eq_some_iff
-/
import VesselHub.Proofs.Model.Standing
import VesselHub.Proofs.Model.WellFormed

namespace VesselHub

namespace Layout

variable {layout target : Layout} {trail : List String}

theorem standsAt_append {above below : List String} :
    layout.StandsAt (above ++ below) target ↔
      ∃ middle, layout.StandsAt above middle ∧ middle.StandsAt below target := by
  induction above generalizing layout with
  | nil =>
      constructor
      · exact fun stands => ⟨layout, rfl, stands⟩
      · rintro ⟨_, rfl, stands⟩
        exact stands
  | cons key above induction_step =>
      constructor
      · rintro ⟨kid, has_kid, stands⟩
        obtain ⟨middle, upper, lower⟩ := induction_step.1 stands
        exact ⟨middle, ⟨kid, has_kid, upper⟩, lower⟩
      · rintro ⟨middle, ⟨kid, has_kid, upper⟩, lower⟩
        exact ⟨kid, has_kid, induction_step.2 ⟨middle, upper, lower⟩⟩

/-- What stands under one more key is a kid of what stands above it. -/
theorem standsAt_concat {key : String} : layout.StandsAt (trail ++ [key]) target ↔
    ∃ middle, layout.StandsAt trail middle ∧ middle.HasKid key target := by
  rw [standsAt_append]
  refine exists_congr fun middle => and_congr_right fun _ => ?_
  constructor
  · rintro ⟨_, has_kid, rfl⟩
    exact has_kid
  · exact fun has_kid => ⟨target, has_kid, rfl⟩

private theorem exists_hasKid {kid : Layout} (is_kid : kid ∈ layout.kids) :
    ∃ key, layout.HasKid key kid := by
  cases layout with
  | leaf id held => cases is_kid
  | object id children =>
      obtain ⟨⟨key, _⟩, entry_mem, rfl⟩ := List.mem_map.1 is_kid
      exact ⟨key, entry_mem⟩
  | array id items =>
      obtain ⟨position, item_eq⟩ := List.mem_iff_getElem?.1 is_kid
      exact ⟨_, position, item_eq, rfl⟩

/-- Every key on the way to a node leads past a node of its own. -/
private theorem StandsAt.length_lt (stands : layout.StandsAt trail target) :
    trail.length < layout.ids.length := by
  induction trail generalizing layout with
  | nil => exact List.length_pos_of_mem layout.id_mem_ids
  | cons key trail induction_step =>
      obtain ⟨kid, has_kid, below⟩ := stands
      have shorter := length_ids_lt_of_mem_kids has_kid.mem_kids
      have rest := induction_step below
      rw [List.length_cons]
      omega

end Layout

namespace Model

variable {model : Model} {parent : Option NodeId} {layout target : Layout} {trail : List String}

namespace Holds

/-- Every node of a layout stands at some keys. -/
theorem exists_standsAt (holds : model.Holds parent layout) {id : NodeId}
    (member : id ∈ layout.ids) : ∃ trail target, layout.StandsAt trail target ∧ target.id = id := by
  induction holds with
  | @intro parent layout _ _ _ induction_step =>
      rcases Layout.mem_ids.1 member with rfl | ⟨kid, is_kid, in_kid⟩
      · exact ⟨[], layout, rfl, rfl⟩
      · obtain ⟨key, has_kid⟩ := Layout.exists_hasKid is_kid
        obtain ⟨trail, target, stands, same_id⟩ := induction_step kid is_kid in_kid
        exact ⟨key :: trail, target, ⟨kid, has_kid, stands⟩, same_id⟩

theorem standsAt_holds (holds : model.Holds parent layout) (stands : layout.StandsAt trail target) :
    ∃ above, model.Holds above target := by
  induction trail generalizing layout parent with
  | nil =>
      cases stands
      exact ⟨parent, holds⟩
  | cons key trail induction_step =>
      obtain ⟨kid, has_kid, below⟩ := stands
      exact induction_step (holds.kid_holds has_kid.mem_kids) below

/-- A node knows the key of each of its children, as it lists none of them twice. -/
theorem keyOf?_eq (holds : model.Holds parent layout) (distinct : layout.ids.Nodup) {key : String}
    {kid : Layout} (has_kid : layout.HasKid key kid) :
    model.keyOf? layout.id kid.id = some key := by
  have content_eq := holds.content?_eq
  rw [Layout.ids_eq, List.nodup_cons] at distinct
  have listed_once := Layout.nodup_map_id distinct.2
  cases layout with
  | leaf id held => cases has_kid
  | object id children =>
      obtain ⟨before, after, rfl⟩ := List.append_of_mem has_kid
      rw [Layout.kids_object_split, List.map_append, List.map_cons, List.nodup_append]
        at listed_once
      rw [Layout.content] at content_eq
      rw [keyOf?, content_eq]
      dsimp only
      rw [List.map_append, List.find?_append, List.find?_eq_none.2, Option.none_or, List.map_cons,
        List.find?_cons_of_pos (by simp), Option.map_some]
      -- No child before this one is the same node.
      intro entry entry_mem same
      obtain ⟨other, other_mem, rfl⟩ := List.mem_map.1 entry_mem
      exact listed_once.2.2 _ (List.mem_map_of_mem (List.mem_map_of_mem other_mem)) _
        List.mem_cons_self (of_decide_eq_true same)
  | array id items =>
      obtain ⟨position, item_eq, rfl⟩ := has_kid
      obtain ⟨within, item_at⟩ := List.getElem?_eq_some_iff.1 item_eq
      rw [Layout.content] at content_eq
      rw [Layout.kids] at listed_once
      rw [keyOf?, content_eq]
      dsimp only
      have found : (items.map Layout.id).findIdx? (· = kid.id) = some position := by
        rw [List.findIdx?_eq_some_iff_getElem]
        refine ⟨by rwa [List.length_map], by simp [item_at], ?_⟩
        intro earlier is_earlier same
        have earlier_within := is_earlier.trans within
        have same_id : (items.map Layout.id)[earlier]? = (items.map Layout.id)[position]? := by
          rw [List.getElem?_map, List.getElem?_map, item_eq,
            List.getElem?_eq_getElem earlier_within, Option.map_some, Option.map_some]
          simpa using same
        have in_range : earlier < (items.map Layout.id).length := by rwa [List.length_map]
        have same_position := (List.getElem?_inj in_range listed_once).1 same_id
        omega
      rw [found, Option.map_some]

/-- Climbing from a node puts the keys that it stands at in front. -/
theorem climb_eq (holds : model.Holds parent layout) (distinct : layout.ids.Nodup)
    (stands : layout.StandsAt trail target) (height : Nat) (below : List String) :
    model.climb (height + 1 + trail.length) target.id below =
      model.climb (height + 1) layout.id (trail ++ below) := by
  induction trail generalizing layout parent height with
  | nil =>
      cases stands
      rfl
  | cons key trail induction_step =>
      obtain ⟨kid, has_kid, stands_below⟩ := stands
      have is_kid := has_kid.mem_kids
      have kid_holds := holds.kid_holds is_kid
      have rest := induction_step kid_holds (Layout.nodup_of_mem_kids distinct is_kid) stands_below
        (height + 1)
      have levels : height + 1 + (key :: trail).length = height + 1 + 1 + trail.length := by
        rw [List.length_cons]
        omega
      rw [levels, rest, climb, kid_holds.here]
      dsimp only
      rw [holds.keyOf?_eq distinct has_kid, Option.bind_some, List.cons_append]

end Holds

theorem pathOf?_of_gone {id : NodeId} (gone : ¬ model.contains id) : model.pathOf? id = none := by
  rw [contains, Bool.not_eq_true, Option.isSome_eq_false_iff, Option.isNone_iff_eq_none] at gone
  rw [pathOf?]
  cases model.slots.size with
  | zero => rfl
  | succ height => rw [climb, gone]

namespace Intact

theorem exists_standsAt_of_contains (intact : model.Intact layout) {id : NodeId}
    (live : model.contains id) : ∃ trail target, layout.StandsAt trail target ∧ target.id = id :=
  intact.stores.holds.exists_standsAt (intact.complete id live)

theorem pathOf?_of_standsAt (intact : model.Intact layout) (stands : layout.StandsAt trail target) :
    model.pathOf? target.id = some trail := by
  have short := stands.length_lt
  have fits := intact.stores.holds.length_le_slots intact.stores.distinct
  obtain ⟨height, size_eq⟩ : ∃ height, model.slots.size = height + 1 + trail.length :=
    ⟨model.slots.size - 1 - trail.length, by omega⟩
  rw [pathOf?, size_eq, intact.stores.holds.climb_eq intact.stores.distinct stands, climb,
    intact.stores.holds.here]
  dsimp only
  rw [if_pos intact.at_root, List.append_nil]

/-- The path of a node is the keys that it stands at. -/
theorem pathOf?_eq_some_iff (intact : model.Intact layout) {id : NodeId} :
    model.pathOf? id = some trail ↔ ∃ target, layout.StandsAt trail target ∧ target.id = id := by
  constructor
  · intro found
    by_cases live : model.contains id
    · obtain ⟨other, target, stands, rfl⟩ := intact.exists_standsAt_of_contains live
      rw [intact.pathOf?_of_standsAt stands, Option.some.injEq] at found
      exact ⟨target, found ▸ stands, rfl⟩
    · rw [pathOf?_of_gone live] at found
      cases found
  · rintro ⟨target, stands, rfl⟩
    exact intact.pathOf?_of_standsAt stands

/-- Every node that is there has a path. -/
theorem isSome_pathOf? (intact : model.Intact layout) {id : NodeId} (live : model.contains id) :
    (model.pathOf? id).isSome := by
  obtain ⟨trail, target, stands, rfl⟩ := intact.exists_standsAt_of_contains live
  rw [intact.pathOf?_of_standsAt stands]
  rfl

end Intact

end Model

end VesselHub
