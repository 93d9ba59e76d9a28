/-
Module: VesselHub.Proofs.Model.Slots
Purpose: What the steps on single slots do to the nodes that ids name. Each step is described by
  its effect on `Model.node?` alone, and each keeps the free list exact.
Main exports: Model.FreeExact, Model.Changes, Model.node?_eq_some_iff, Model.changes_allocate,
  Model.changes_vacate
-/
import Mathlib.Data.List.Nodup
import Mathlib.Data.List.Perm.Subperm
import VesselHub.Model.Basic

namespace VesselHub.Model

/-- The free list names the empty slots and nothing else, each of them once. -/
structure FreeExact (model : Model) : Prop where
  distinct : model.free.Nodup
  mem_iff : ∀ index, index ∈ model.free ↔
    ∃ slot, model.slots[index]? = some slot ∧ slot.node = none

/-- The nodes `new` stand in place of the nodes `old`, and every other node is as it was. -/
structure Changes (before after : Model) (old new : List NodeId) : Prop where
  freeExact : after.FreeExact
  root : after.root = before.root
  resolver : after.resolver = before.resolver
  frame : ∀ id, id ∉ old → id ∉ new → after.node? id = before.node? id
  fresh : ∀ id ∈ new, id ∉ old → before.node? id = none
  gone : ∀ id ∈ old, id ∉ new → after.node? id = none

namespace Changes

variable {first second third : Model} {old middle new : List NodeId}

theorem refl {model : Model} (exact : model.FreeExact) (ids : List NodeId) :
    Changes model model ids ids where
  freeExact := exact
  root := rfl
  resolver := rfl
  frame _ _ _ := rfl
  fresh _ member absent := absurd member absent
  gone _ member absent := absurd member absent

theorem trans (one : Changes first second old middle) (two : Changes second third middle new) :
    Changes first third old new where
  freeExact := two.freeExact
  root := two.root.trans one.root
  resolver := two.resolver.trans one.resolver
  frame id not_old not_new := by
    by_cases between : id ∈ middle
    · rw [one.fresh id between not_old, two.gone id between not_new]
    · rw [two.frame id between not_new, one.frame id not_old between]
  fresh id is_new not_old := by
    by_cases between : id ∈ middle
    · exact one.fresh id between not_old
    · rw [← one.frame id not_old between]
      exact two.fresh id is_new between
  gone id is_old not_new := by
    by_cases between : id ∈ middle
    · exact two.gone id between not_new
    · rw [two.frame id between not_new]
      exact one.gone id is_old between

/-- Other nodes may be counted as kept. -/
theorem append (change : Changes first second old new) (kept : List NodeId) :
    Changes first second (kept ++ old) (kept ++ new) where
  freeExact := change.freeExact
  root := change.root
  resolver := change.resolver
  frame id not_old not_new := by
    simp only [List.mem_append, not_or] at not_old not_new
    exact change.frame id not_old.2 not_new.2
  fresh id is_new not_old := by
    simp only [List.mem_append, not_or] at is_new not_old
    exact change.fresh id (is_new.resolve_left not_old.1) not_old.2
  gone id is_old not_new := by
    simp only [List.mem_append, not_or] at is_old not_new
    exact change.gone id (is_old.resolve_left not_new.1) not_new.2

/-- Only which nodes are listed matters, not their order. -/
theorem congr (change : Changes first second old new) {old' new' : List NodeId}
    (same_old : ∀ id, id ∈ old' ↔ id ∈ old) (same_new : ∀ id, id ∈ new' ↔ id ∈ new) :
    Changes first second old' new' where
  freeExact := change.freeExact
  root := change.root
  resolver := change.resolver
  frame id not_old not_new :=
    change.frame id (mt (same_old id).2 not_old) (mt (same_new id).2 not_new)
  fresh id is_new not_old :=
    change.fresh id ((same_new id).1 is_new) (mt (same_old id).2 not_old)
  gone id is_old not_new :=
    change.gone id ((same_old id).1 is_old) (mt (same_new id).2 not_new)

/-- A change that puts nodes in their own place keeps any nodes that include them. -/
theorem widen {ids : List NodeId} (change : Changes first second ids ids)
    (kept : List NodeId) (within : ids ⊆ kept) : Changes first second kept kept := by
  have same : ∀ id, id ∈ kept ↔ id ∈ kept ++ ids := fun id => by
    rw [List.mem_append]
    exact ⟨Or.inl, fun either => either.elim (fun member => member) fun member => within member⟩
  exact (change.append kept).congr same same

/-- A node that is there and not replaced is still there. -/
theorem keeps (change : Changes first second old new) {id : NodeId} {node : Node}
    (live : first.node? id = some node) (not_old : id ∉ old) :
    second.node? id = some node := by
  have not_new : id ∉ new := by
    intro is_new
    rw [change.fresh id is_new not_old] at live
    exact absurd live (by simp)
  rw [change.frame id not_old not_new, live]

end Changes

/-! ### The slot of a node -/

/-- Different ids for one slot have different generations. -/
private theorem generation_ne {one other : NodeId} (differs : one ≠ other)
    (same_index : one.index = other.index) : one.generation ≠ other.generation := by
  intro same_generation
  apply differs
  cases one
  cases other
  rw [NodeId.mk.injEq]
  exact ⟨same_index, same_generation⟩

/-- The slot of a node that is there has the generation of its id. -/
theorem node?_eq_some_iff {model : Model} {id : NodeId} {node : Node} :
    model.node? id = some node ↔ model.slots[id.index]? = some ⟨id.generation, some node⟩ := by
  rw [node?]
  constructor
  · intro found
    split at found
    · rename_i slot slot_eq
      split at found
      · rename_i current
        rw [slot_eq, ← current, ← found]
      · cases found
    · cases found
  · intro slot_eq
    rw [slot_eq]
    exact if_pos rfl

theorem exists_slot_of_contains {model : Model} {id : NodeId} (live : model.contains id) :
    ∃ node, model.slots[id.index]? = some ⟨id.generation, some node⟩ := by
  obtain ⟨node, node_eq⟩ := Option.isSome_iff_exists.1 live
  exact ⟨node, node?_eq_some_iff.1 node_eq⟩

theorem index_lt_of_contains {model : Model} {id : NodeId} (live : model.contains id) :
    id.index < model.slots.size := by
  obtain ⟨node, slot_eq⟩ := exists_slot_of_contains live
  exact (Array.getElem?_eq_some_iff.1 slot_eq).1

/-- Two nodes that are there and share a slot are the same node. -/
theorem id_eq_of_index_eq {model : Model} {one other : NodeId}
    (one_live : model.contains one) (other_live : model.contains other)
    (same_index : one.index = other.index) : one = other := by
  obtain ⟨node, slot_eq⟩ := exists_slot_of_contains one_live
  obtain ⟨other_node, other_eq⟩ := exists_slot_of_contains other_live
  rw [same_index, other_eq, Option.some.injEq, Slot.mk.injEq] at slot_eq
  by_contra differs
  exact generation_ne differs same_index slot_eq.1.symm

/-! ### Changing a node -/

theorem node?_modifyNode (model : Model) (id other : NodeId) (change : Node → Node) :
    (model.modifyNode id change).node? other =
      if other = id then (model.node? id).map change else model.node? other := by
  unfold node? modifyNode
  simp only [Array.getElem?_modify]
  by_cases same_index : id.index = other.index
  · cases slot_eq : model.slots[other.index]? with
    | none => simp [same_index, slot_eq]
    | some slot =>
        by_cases same : other = id
        · subst same
          by_cases current : slot.generation = other.generation <;> simp [slot_eq, current]
        · have differs := generation_ne same same_index.symm
          simp only [same_index, if_true, Option.map_some, same, if_false]
          by_cases current : slot.generation = id.generation
          · simp [current, Ne.symm differs]
          · simp [current]
  · have differs : other ≠ id := fun same => same_index (by rw [same])
    simp [same_index, differs]

theorem freeExact_modifyNode {model : Model} (exact : model.FreeExact) (id : NodeId)
    (change : Node → Node) : (model.modifyNode id change).FreeExact where
  distinct := exact.distinct
  mem_iff index := by
    show index ∈ model.free ↔ _
    rw [exact.mem_iff]
    simp only [modifyNode, Array.getElem?_modify]
    by_cases same_index : id.index = index
    · subst same_index
      cases model.slots[id.index]? with
      | none => simp
      | some slot => by_cases current : slot.generation = id.generation <;> simp [current]
    · simp [same_index]

/-- Changing one node changes nothing else. -/
theorem changes_modifyNode {model : Model} (exact : model.FreeExact) (id : NodeId)
    (change : Node → Node) : Changes model (model.modifyNode id change) [id] [id] where
  freeExact := freeExact_modifyNode exact id change
  root := rfl
  resolver := rfl
  frame other not_old _ := by
    rw [node?_modifyNode, if_neg (by simpa using not_old)]
  fresh _ member absent := absurd member absent
  gone _ member absent := absurd member absent

theorem node?_setContent {model : Model} {id : NodeId} {node : Node}
    (live : model.node? id = some node) (content : Content) :
    (model.setContent id content).node? id = some ⟨node.parent, content⟩ := by
  simp [setContent, node?_modifyNode, live]

theorem changes_setContent {model : Model} (exact : model.FreeExact) (id : NodeId)
    (content : Content) : Changes model (model.setContent id content) [id] [id] :=
  changes_modifyNode exact id _

/-- A node that points to its parent already is not changed by pointing it there. -/
theorem changes_setParent {model : Model} (exact : model.FreeExact) {id parent : NodeId}
    {content : Content} (live : model.node? id = some ⟨some parent, content⟩) :
    Changes model (model.setParent id parent) [] [] where
  freeExact := freeExact_modifyNode exact id _
  root := rfl
  resolver := rfl
  frame other _ _ := by
    rw [setParent, node?_modifyNode]
    split
    · rename_i same
      subst same
      simp [live]
    · rfl
  fresh _ member := absurd member (by simp)
  gone _ member := absurd member (by simp)

/-! ### Taking and emptying slots -/

/-- The slot that a new node gets. -/
theorem node?_allocate {model : Model} (exact : model.FreeExact) (parent : Option NodeId)
    (content : Content) (other : NodeId) :
    (model.allocate parent content).1.node? other =
      if other = (model.allocate parent content).2 then some ⟨parent, content⟩
      else model.node? other := by
  unfold allocate
  cases free_eq : model.free with
  | nil =>
      simp only [node?, Array.getElem?_push]
      by_cases same_index : other.index = model.slots.size
      · by_cases same_generation : other.generation = 0
        · have same : other = ⟨model.slots.size, 0⟩ := by
            cases other
            simp_all
          simp [same]
        · have differs : other ≠ ⟨model.slots.size, 0⟩ := fun same =>
            same_generation (by rw [same])
          simp [same_index, differs, Ne.symm same_generation]
      · have differs : other ≠ ⟨model.slots.size, 0⟩ := fun same => same_index (by rw [same])
        simp [same_index, differs]
  | cons index free =>
      obtain ⟨slot, slot_eq, is_empty⟩ := (exact.mem_iff index).1 (by simp [free_eq])
      simp only [slot_eq, Option.map_some, Option.getD_some, node?, Array.getElem?_modify]
      by_cases same_index : index = other.index
      · subst same_index
        by_cases same_generation : slot.generation = other.generation
        · have same : other = ⟨other.index, slot.generation⟩ := by
            rw [same_generation]
          simp [slot_eq, same_generation]
        · have differs : other ≠ ⟨other.index, slot.generation⟩ := fun same =>
            same_generation (by rw [same])
          simp [slot_eq, same_generation, differs]
      · have differs : other ≠ ⟨index, slot.generation⟩ := fun same =>
          same_index (by rw [same])
        simp [same_index, differs]

theorem node?_of_allocate {model : Model} (exact : model.FreeExact) (parent : Option NodeId)
    (content : Content) : model.node? (model.allocate parent content).2 = none := by
  unfold allocate
  cases free_eq : model.free with
  | nil => simp [node?]
  | cons index free =>
      obtain ⟨slot, slot_eq, is_empty⟩ := (exact.mem_iff index).1 (by simp [free_eq])
      simp [node?, slot_eq, is_empty]

theorem freeExact_allocate {model : Model} (exact : model.FreeExact) (parent : Option NodeId)
    (content : Content) : (model.allocate parent content).1.FreeExact := by
  unfold allocate
  cases free_eq : model.free with
  | nil =>
      have none_free : ∀ (index : Nat) (slot : Slot),
          model.slots[index]? = some slot → slot.node ≠ none := by
        intro index slot slot_eq is_empty
        have member := (exact.mem_iff index).2 ⟨slot, slot_eq, is_empty⟩
        simp [free_eq] at member
      refine ⟨by simp, ?_⟩
      intro index
      simp only [List.not_mem_nil, false_iff, Array.getElem?_push]
      rintro ⟨slot, slot_eq, is_empty⟩
      split at slot_eq
      · cases slot_eq
        simp at is_empty
      · exact none_free index slot slot_eq is_empty
  | cons index free =>
      have distinct := exact.distinct
      rw [free_eq, List.nodup_cons] at distinct
      refine ⟨distinct.2, ?_⟩
      intro other
      have mem_iff := exact.mem_iff other
      simp only [free_eq, List.mem_cons] at mem_iff
      simp only [Array.getElem?_modify]
      by_cases same_index : index = other
      · subst same_index
        obtain ⟨slot, slot_eq, is_empty⟩ := mem_iff.1 (Or.inl rfl)
        simp [slot_eq, distinct.1]
      · simp only [same_index, if_false, ← mem_iff, Ne.symm same_index, false_or]

/-- A new node stands where none was. -/
theorem changes_allocate {model : Model} (exact : model.FreeExact) (parent : Option NodeId)
    (content : Content) :
    Changes model (model.allocate parent content).1 [] [(model.allocate parent content).2] where
  freeExact := freeExact_allocate exact parent content
  root := by
    unfold allocate
    split <;> rfl
  resolver := by
    unfold allocate
    split <;> rfl
  frame other _ not_new := by
    rw [node?_allocate exact, if_neg (by simpa using not_new)]
  fresh other is_new _ := by
    rw [List.mem_singleton.1 is_new]
    exact node?_of_allocate exact parent content
  gone other is_old := absurd is_old (by simp)

theorem node?_vacate (model : Model) (id other : NodeId) :
    (model.vacate id).node? other = if other = id then none else model.node? other := by
  unfold vacate
  split
  · rename_i live
    obtain ⟨node, slot_eq⟩ := exists_slot_of_contains live
    simp only [node?, Array.getElem?_modify]
    by_cases same_index : id.index = other.index
    · by_cases same : other = id
      · subst same
        simp [slot_eq]
      · have stale := generation_ne (Ne.symm same) same_index
        simp [← same_index, slot_eq, same, stale]
    · have differs : other ≠ id := fun same => same_index (by rw [same])
      simp [same_index, differs]
  · rename_i dead
    split
    · rename_i same
      subst same
      simpa [contains] using dead
    · rfl

theorem freeExact_vacate {model : Model} (exact : model.FreeExact) (id : NodeId) :
    (model.vacate id).FreeExact := by
  unfold vacate
  split
  · rename_i live
    obtain ⟨node, slot_eq⟩ := exists_slot_of_contains live
    have not_free : id.index ∉ model.free := by
      intro is_free
      obtain ⟨found, found_eq, is_empty⟩ := (exact.mem_iff id.index).1 is_free
      rw [slot_eq, Option.some.injEq] at found_eq
      rw [← found_eq] at is_empty
      cases is_empty
    refine ⟨List.nodup_cons.2 ⟨not_free, exact.distinct⟩, ?_⟩
    intro index
    simp only [List.mem_cons, Array.getElem?_modify]
    by_cases same_index : id.index = index
    · subst same_index
      simp [slot_eq]
    · simp only [Ne.symm same_index, same_index, false_or, if_false]
      exact exact.mem_iff index
  · exact exact

/-- An emptied slot holds no node. -/
theorem changes_vacate {model : Model} (exact : model.FreeExact) (id : NodeId) :
    Changes model (model.vacate id) [id] [] where
  freeExact := freeExact_vacate exact id
  root := by
    unfold vacate
    split <;> rfl
  resolver := by
    unfold vacate
    split <;> rfl
  frame other not_old _ := by
    rw [node?_vacate, if_neg (by simpa using not_old)]
  fresh _ member := absurd member (by simp)
  gone other is_old _ := by
    rw [node?_vacate, if_pos (by simpa using is_old)]

/-- There are no more nodes than slots. -/
theorem length_le_slots {model : Model} {ids : List NodeId} (distinct : ids.Nodup)
    (live : ∀ id ∈ ids, model.contains id) : ids.length ≤ model.slots.size := by
  have distinct_indices : (ids.map NodeId.index).Nodup :=
    List.Nodup.map_on
      (fun one one_mem other other_mem =>
        id_eq_of_index_eq (live one one_mem) (live other other_mem)) distinct
  have within : ids.map NodeId.index ⊆ List.range model.slots.size := by
    intro index member
    obtain ⟨id, id_mem, rfl⟩ := List.mem_map.1 member
    exact List.mem_range.2 (index_lt_of_contains (live id id_mem))
  have bound := (List.subperm_of_subset distinct_indices within).length_le
  simpa using bound

end VesselHub.Model
