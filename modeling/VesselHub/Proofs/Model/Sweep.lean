/-
Module: VesselHub.Proofs.Model.Sweep
Purpose: Removing a branch with a stack of nodes that are still to be emptied. The stack finds the
  nodes while it empties them, and still empties the same slots in the same order as removing the
  branch by a list of its nodes.
Main exports: Model.nodeCount_vacate_lt, ByNodes.sweep, ByNodes.sweep_stack, ByNodes.sweep_eq
-/
import VesselHub.Proofs.Model.Replace

namespace VesselHub

variable {model : Model} {parent : Option NodeId} {layout : Layout}

/-- A node that is there is gone when its slot has been emptied. -/
theorem Model.nodeCount_vacate_lt {id : NodeId} (live : model.contains id) :
    (model.vacate id).nodeCount < model.nodeCount := by
  obtain ⟨node, slot_eq⟩ := exists_slot_of_contains live
  have within : id.index < model.slots.toList.length := index_lt_of_contains live
  obtain ⟨before, held, after, split, length_eq, emptied⟩ := List.exists_of_modify
    (fun slot : Slot => { generation := slot.generation + 1, node := none }) within
  have held_eq : held = ⟨id.generation, some node⟩ := by
    rw [← Array.getElem?_toList, split, ← length_eq] at slot_eq
    simpa using slot_eq
  rw [vacate, if_pos live, nodeCount, nodeCount, Array.toList_modify, emptied, split, held_eq]
  simp

namespace ByNodes

/-- Empties the slots of the nodes on a stack, the topmost first. What a node listed comes on top
of the stack, its last child topmost. An id that names nothing is dropped. -/
def sweep (model : Model) : List NodeId → Model
  | [] => model
  | id :: stack =>
      match _ : model.node? id with
      | none => sweep model stack
      | some node => sweep (model.vacate id) (node.content.children.reverse ++ stack)
termination_by stack => (model.nodeCount, stack.length)
decreasing_by
  · exact Prod.Lex.right _ (Nat.lt_succ_self _)
  -- The stack may grow, but then there is one node less.
  · exact Prod.Lex.left _ _ (Model.nodeCount_vacate_lt
      (Option.isSome_iff_exists.2 ⟨_, ‹model.node? id = some _›⟩))

/-- A node that is there leaves its slot and the stack, and its children get on the stack. -/
private theorem sweep_held (holds : model.Holds parent layout) (others : List Layout) :
    sweep model ((layout :: others).map Layout.id) =
      sweep (model.vacate layout.id) ((layout.kids.reverse ++ others).map Layout.id) := by
  rw [List.map_cons, sweep]
  split
  · rename_i gone
    rw [holds.here] at gone
    cases gone
  · rename_i node node_eq
    rw [holds.here] at node_eq
    cases node_eq
    rw [Layout.children_content, List.map_append, List.map_reverse]

/-- A stack of branches that have no node in common is swept along the ids of the branches. The
ids tell the nodes that the sweep has still to reach, and a step takes the first of them off. -/
theorem sweep_stack {stack : List Layout} {ids : List NodeId}
    (whole : stack.flatMap Layout.ids = ids)
    (held : ∀ layout ∈ stack, ∃ parent, model.Holds parent layout) (distinct : ids.Nodup) :
    sweep model (stack.map Layout.id) = ids.foldl Model.vacate model := by
  induction ids generalizing model stack with
  | nil =>
      cases stack with
      | nil => rw [List.map_nil, sweep, List.foldl_nil]
      | cons layout others => simp [Layout.ids_eq layout] at whole
  | cons id ids induction_step =>
      cases stack with
      | nil => cases whole
      | cons layout others =>
          rw [List.flatMap_cons, Layout.ids_eq, List.cons_append, List.cons.injEq] at whole
          obtain ⟨rfl, rest⟩ := whole
          rw [List.nodup_cons] at distinct
          obtain ⟨parent, holds⟩ := held layout List.mem_cons_self
          have next : (layout.kids.reverse ++ others).flatMap Layout.ids = ids := by
            rw [List.flatMap_append]
            exact rest
          rw [sweep_held holds, List.foldl_cons]
          refine induction_step next (fun lower member => ?_) distinct.2
          have still_held : ∃ parent, model.Holds parent lower := by
            rcases List.mem_append.1 member with is_kid | is_other
            · exact ⟨_, holds.kid_holds (List.mem_reverse.1 is_kid)⟩
            · exact held lower (List.mem_cons_of_mem _ is_other)
          obtain ⟨above, lower_holds⟩ := still_held
          refine ⟨above, lower_holds.transport fun other in_lower => ?_⟩
          have in_rest : other ∈ ids := next ▸ List.mem_flatMap.2 ⟨lower, member, in_lower⟩
          rw [Model.node?_vacate, if_neg (ne_of_mem_of_not_mem in_rest distinct.1)]

/-- Sweeping a branch removes it. -/
theorem sweep_eq (stored : model.Stores parent layout) :
    sweep model [layout.id] = model.release layout.id := by
  have whole : [layout].flatMap Layout.ids = layout.ids := by rw [List.flatMap_singleton]
  rw [Model.release, stored.holds.subtree_eq stored.distinct]
  exact sweep_stack whole (List.forall_mem_singleton.2 ⟨parent, stored.holds⟩) stored.distinct

end ByNodes

end VesselHub
