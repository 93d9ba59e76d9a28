/-
Module: VesselHub.Proofs.Json.Reordered
Purpose: Values that differ in the order of members only, at any depth. Values without repeated
  keys are then equal for the equality that ignores the order.
Main exports: Json.Reordered, Json.Reordered.object_map, Json.Reordered.hasDistinctKeys,
  Json.Reordered.same
-/
import VesselHub.Proofs.Json.Same

namespace VesselHub.Json

/-- One value is the other with the members of its objects in another order. -/
inductive Reordered : Json → Json → Prop where
  | refl (value : Json) : Reordered value value
  | trans {one two three : Json} (first : Reordered one two) (second : Reordered two three) :
      Reordered one three
  | members {members others : List (String × Json)} (perm : members.Perm others) :
      Reordered (.object members) (.object others)
  | member (before after : List (String × Json)) (key : String) {one other : Json}
      (inner : Reordered one other) :
      Reordered (.object (before ++ (key, one) :: after))
        (.object (before ++ (key, other) :: after))
  | item (before after : List Json) {one other : Json} (inner : Reordered one other) :
      Reordered (.array (before ++ one :: after)) (.array (before ++ other :: after))

theorem membersHaveDistinctKeys_iff {members : List (String × Json)} :
    MembersHaveDistinctKeys members ↔ ∀ member ∈ members, member.2.HasDistinctKeys := by
  induction members with
  | nil => simp [MembersHaveDistinctKeys]
  | cons member members induction_step =>
      rw [List.forall_mem_cons, ← induction_step]
      rfl

theorem itemsHaveDistinctKeys_iff {items : List Json} :
    ItemsHaveDistinctKeys items ↔ ∀ item ∈ items, item.HasDistinctKeys := by
  induction items with
  | nil => simp [ItemsHaveDistinctKeys]
  | cons item items induction_step =>
      rw [List.forall_mem_cons, ← induction_step]
      rfl

private theorem sameItems_append {lefts rights others more : List Json}
    (first : sameItems lefts rights)
    (second : sameItems others more) : sameItems (lefts ++ others) (rights ++ more) := by
  induction lefts generalizing rights with
  | nil =>
      cases rights with
      | nil => exact second
      | cons right rights => cases first
  | cons left lefts induction_step =>
      cases rights with
      | nil => cases first
      | cons right rights =>
          rw [sameItems, Bool.and_eq_true] at first
          rw [List.cons_append, List.cons_append, sameItems, Bool.and_eq_true]
          exact ⟨first.1, induction_step first.2⟩

namespace Reordered

variable {one other : Json}

theorem symm (reordered : Reordered one other) : Reordered other one := by
  induction reordered with
  | refl value => exact .refl value
  | trans _ _ first second => exact .trans second first
  | members perm => exact .members perm.symm
  | member before after key _ induction_step => exact .member before after key induction_step
  | item before after _ induction_step => exact .item before after induction_step

/-- Members whose values differ in the order of members only. -/
theorem object_map {Item : Type} {items : List Item} {key : Item → String}
    {value twin : Item → Json} (each : ∀ item ∈ items, Reordered (value item) (twin item)) :
    Reordered (.object (items.map fun item => (key item, value item)))
      (.object (items.map fun item => (key item, twin item))) := by
  -- The members that were exchanged already stand in front.
  have behind : ∀ before : List (String × Json),
      Reordered (.object (before ++ items.map fun item => (key item, value item)))
        (.object (before ++ items.map fun item => (key item, twin item))) := by
    induction items with
    | nil => exact fun _ => .refl _
    | cons item items induction_step =>
        intro before
        rw [List.forall_mem_cons] at each
        have rest := induction_step each.2 (before ++ [(key item, twin item)])
        rw [List.append_assoc, List.append_assoc] at rest
        exact (Reordered.member before _ (key item) each.1).trans rest
  exact behind []

theorem hasDistinctKeys (reordered : Reordered one other) (distinct : one.HasDistinctKeys) :
    other.HasDistinctKeys := by
  induction reordered with
  | refl value => exact distinct
  | trans _ _ first second => exact second (first distinct)
  | members perm =>
      constructor
      · exact (perm.map Prod.fst).nodup_iff.1 distinct.1
      · rw [membersHaveDistinctKeys_iff]
        intro member member_mem
        exact membersHaveDistinctKeys_iff.1 distinct.2 member (perm.mem_iff.2 member_mem)
  | member before after key _ induction_step =>
      obtain ⟨keys, values⟩ := distinct
      rw [membersHaveDistinctKeys_iff, List.forall_mem_append, List.forall_mem_cons] at values
      constructor
      · simpa [Entries.keys] using keys
      · rw [membersHaveDistinctKeys_iff, List.forall_mem_append, List.forall_mem_cons]
        exact ⟨values.1, induction_step values.2.1, values.2.2⟩
  | item before after _ induction_step =>
      have items := itemsHaveDistinctKeys_iff.1 distinct
      rw [List.forall_mem_append, List.forall_mem_cons] at items
      apply itemsHaveDistinctKeys_iff.2
      rw [List.forall_mem_append, List.forall_mem_cons]
      exact ⟨items.1, induction_step items.2.1, items.2.2⟩

/-- The equality of values sees no difference in the order of members. -/
theorem same (reordered : Reordered one other) (distinct : one.HasDistinctKeys) :
    one.same other := by
  induction reordered with
  | refl value => exact same_refl distinct
  | trans first _ first_same second_same =>
      exact same_trans (first_same distinct) (second_same (first.hasDistinctKeys distinct))
  | @members members others perm =>
      have keys := (perm.map Prod.fst).nodup_iff.1 distinct.1
      rw [Json.same, Bool.and_eq_true, beq_iff_eq]
      refine ⟨perm.length_eq, sameMembers_of_forall fun key value member => ⟨value, ?_, ?_⟩⟩
      · exact Entries.get?_of_mem keys (perm.mem_iff.1 member)
      · exact same_refl (distinctKeys_of_mem distinct.2 member)
  | @member before after key one other inner induction_step =>
      have whole := (Reordered.member before after key inner).hasDistinctKeys distinct
      have values := membersHaveDistinctKeys_iff.1 distinct.2
      rw [List.forall_mem_append, List.forall_mem_cons] at values
      rw [Json.same, Bool.and_eq_true, beq_iff_eq]
      refine ⟨by simp, sameMembers_of_forall fun name value member => ?_⟩
      -- The changed member has an equal one, the others are there themselves.
      rcases List.mem_append.1 member with earlier | later
      · refine ⟨value, Entries.get?_of_mem whole.1 (List.mem_append_left _ earlier), ?_⟩
        exact same_refl (values.1 _ earlier)
      rcases List.mem_cons.1 later with changed | last
      · cases changed
        refine ⟨other, Entries.get?_of_mem whole.1 ?_, induction_step values.2.1⟩
        exact List.mem_append_right _ List.mem_cons_self
      · refine ⟨value, Entries.get?_of_mem whole.1 ?_, same_refl (values.2.2 _ last)⟩
        exact List.mem_append_right _ (List.mem_cons_of_mem _ last)
  | item before after _ induction_step =>
      have items := itemsHaveDistinctKeys_iff.1 distinct
      rw [List.forall_mem_append, List.forall_mem_cons] at items
      refine sameItems_append (sameItems_refl (itemsHaveDistinctKeys_iff.2 items.1)) ?_
      rw [sameItems, Bool.and_eq_true]
      exact ⟨induction_step items.2.1, sameItems_refl (itemsHaveDistinctKeys_iff.2 items.2.2)⟩

end Reordered

end VesselHub.Json
