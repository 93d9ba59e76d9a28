/-
Module: VesselHub.Proofs.Model.Handles
Purpose: Ids as handles. As long as an id names a node it names the node at the same path, and an id
  that names none any more never names one again, unless a slot is emptied so often that its
  generations come round.
Main exports: Model.IsStale, Retired.Rare, Model.Retires.kept, Model.run_handle
-/
import VesselHub.Proofs.Model.Retired

namespace VesselHub

namespace Retired

/-- No slot is emptied so often that a generation of it comes round. -/
def Rare (retired : List NodeId) : Prop :=
  ∀ index, (retired.map NodeId.index).count index < Nat.pow 2 32

private theorem Rare.left {retired more : List NodeId} (rare : Rare (retired ++ more)) :
    Rare retired := by
  intro index
  have both := rare index
  rw [List.map_append, List.count_append] at both
  omega

private theorem along_append {State Item : Type} (step : State → Item → State)
    (retired : State → Item → List NodeId) (before later : List Item) (state : State) :
    along step retired (before ++ later) state =
      along step retired before state ++ along step retired later (before.foldl step state) := by
  induction before generalizing state with
  | nil => rfl
  | cons item before induction_step =>
      simp only [List.cons_append, along, induction_step, List.append_assoc, List.foldl_cons]

theorem operations_append (model : Model) (before later : List Operation) :
    operations model (before ++ later) =
      operations model before ++ operations (before.foldl Model.perform model) later :=
  along_append _ _ before later model

end Retired

namespace Model

/-- An id that names no node of the model, and what is asked of the model with it is refused. -/
structure IsStale (model : Model) (id : NodeId) : Prop where
  gone : model.contains id = false
  addNode?_eq : ∀ path, model.addNode? id path = none
  put?_eq : ∀ key value source timestamp, model.put? id key value source timestamp = none
  delete_eq : ∀ key, model.delete id key = (model, false)
  /-- The model stays as it is. -/
  unchanged : (∀ path, model.perform (.addNode id path) = model) ∧
    (∀ key value source timestamp, model.perform (.put id key value source timestamp) = model) ∧
    ∀ key, model.perform (.delete id key) = model

private theorem isStale_of_gone {model : Model} {id : NodeId} (gone : ¬ model.contains id) :
    model.IsStale id := by
  have no_branch : ∀ path, model.addNode? id path = none := fun path => if_neg gone
  have no_leaf : ∀ key value source timestamp,
      model.put? id key value source timestamp = none := fun _ _ _ _ => if_neg gone
  have no_child := delete_of_gone gone
  exact {
    gone := Bool.eq_false_of_not_eq_true gone
    addNode?_eq := no_branch
    put?_eq := no_leaf
    delete_eq := no_child
    unchanged := by
      refine ⟨fun path => ?_, fun key value source timestamp => ?_, fun key => ?_⟩
      · rw [perform, no_branch]
        rfl
      · rw [perform, no_leaf]
        rfl
      · rw [perform, no_child] }

/-- An id that names a node before and after rarely emptied slots was not retired: its slot has the
generation that it had, so it was not emptied. -/
theorem Retires.kept {model after : Model} {retired : List NodeId}
    (step : Retires model after retired) (rare : Retired.Rare retired) {id : NodeId}
    (live : model.contains id) (still : after.contains id) : id ∉ retired := by
  obtain ⟨node, slot_eq⟩ := exists_slot_of_contains live
  obtain ⟨aged, aged_eq, older⟩ := step.generation id.index _ slot_eq
  obtain ⟨after_node, after_eq⟩ := exists_slot_of_contains still
  obtain rfl : aged = ⟨id.generation, some after_node⟩ :=
    Option.some.inj (aged_eq.symm.trans after_eq)
  have no_step : UInt32.ofNat ((retired.map NodeId.index).count id.index) = 0 :=
    (UInt32.add_right_inj id.generation).1 (older.symm.trans (UInt32.add_zero _).symm)
  have none_retired : (retired.map NodeId.index).count id.index = 0 := by
    have small := rare id.index
    have same := congrArg UInt32.toNat no_step
    rw [UInt32.toNat_ofNat_of_lt' small] at same
    exact same
  intro member
  exact List.count_eq_zero.1 none_retired (List.mem_map_of_mem member)

/-- The state of a run goes on from that of the operations before. -/
theorem run_append (name : String) (before later : List Operation) :
    run name (before ++ later) = later.foldl perform (run name before) :=
  List.foldl_append

/-- From whatever model a run leaves, let operations in place empty no slot so often that its
generations come round. As long as an id of that model names a node, the node is at the same path.
Once the id names none it is stale from then on, also when its slot has been used again. -/
theorem run_handle (name : String) (earlier before later : List Operation) {id : NodeId}
    (live : (run name earlier).contains id)
    (in_place : ∀ operation ∈ before ++ later, operation.isInPlace = true)
    (rare : Retired.Rare (Retired.operations (run name earlier) (before ++ later))) :
    let start := run name earlier
    let middle := run name (earlier ++ before)
    let last := run name (earlier ++ before ++ later)
    (middle.contains id →
        middle.pathOf? id = start.pathOf? id ∧ (start.pathOf? id).isSome) ∧
      (¬ middle.contains id → last.IsStale id) := by
  intro start middle last
  obtain ⟨layout, intact⟩ := run_intact name earlier
  obtain ⟨middle_layout, middle_intact⟩ := run_intact name (earlier ++ before)
  have first : Retires start middle (Retired.operations start before) := by
    have step := retires_operations intact.stores.freeExact fun operation member =>
      in_place operation (List.mem_append_left later member)
    rwa [← run_append] at step
  have second : Retires middle last (Retired.operations middle later) := by
    have step := retires_operations middle_intact.stores.freeExact fun operation member =>
      in_place operation (List.mem_append_right before member)
    rwa [← run_append] at step
  rw [Retired.operations_append, ← run_append] at rare
  refine ⟨fun still => ⟨?_, intact.isSome_pathOf? live⟩,
    fun gone => isStale_of_gone fun again => ?_⟩
  · exact first.pathOf?_eq intact middle_intact (fun _ => first.kept rare.left) live still
  · -- Naming a node again, the id would never have been retired.
    have never_retired := (first.trans second).kept rare live again
    exact gone (first.contains live fun retired => never_retired (List.mem_append_left _ retired))

/-- The id of a deleted leaf stays stale when its slot holds another leaf, and the vessel keeps its
id and its path. -/
theorem renamed_handle :
    let name : Operation := .mergeAt "vessels.self" "name" (.string "Gull")
    let deletion : Operation := .deleteAt "vessels.self" "name"
    let speed : Operation := .mergeAt "vessels.self" "speed" (.bool true)
    (run "gull" [name]).pathOf? ⟨3, 0⟩ = some ["vessels", "gull", "name"] ∧
      (run "gull" [name, deletion, speed]).pathOf? ⟨3, 1⟩ = some ["vessels", "gull", "speed"] ∧
      (run "gull" [name, deletion, speed]).IsStale ⟨3, 0⟩ ∧
      (run "gull" [name, deletion, speed]).pathOf? ⟨2, 0⟩ = some ["vessels", "gull"] := by
  intro name deletion speed
  have in_place : ∀ operation ∈ [deletion, speed], operation.isInPlace = true := by decide
  have rare : Retired.Rare (Retired.operations (run "gull" [name]) [deletion, speed]) := by
    have once : (Retired.operations (run "gull" [name]) [deletion, speed]).length = 1 := by
      decide +kernel
    intro index
    refine Nat.lt_of_le_of_lt List.count_le_length ?_
    rw [List.length_map, once]
    decide
  refine ⟨by decide +kernel, by decide +kernel, ?_, ?_⟩
  · exact (run_handle "gull" [name] [deletion] [speed] (by decide +kernel) in_place rare).2
      (by decide +kernel)
  · have live : (run "gull" [name]).contains ⟨2, 0⟩ := by decide +kernel
    have kept := (run_handle "gull" [name] [deletion, speed] [] live in_place rare).1
      (by decide +kernel)
    exact kept.1.trans (by decide +kernel)

end Model

end VesselHub
