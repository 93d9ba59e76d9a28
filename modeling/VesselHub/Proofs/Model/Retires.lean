/-
Module: VesselHub.Proofs.Model.Retires
Purpose: Steps that retire ids. Each emptied slot gets its next generation; every node that is not
  removed stays under its parent, which lists it under the same key. So it keeps its path.
Main exports: Model.Retires, Model.Retires.trans, Model.Retires.rewired, Model.retires_vacate,
  Model.Retires.pathOf?_eq
-/
import VesselHub.Proofs.Model.Address
import VesselHub.Proofs.Model.Climb

namespace VesselHub.Model

/-- A step that empties the slots of the ids `retired`, one after the other. A slot gets a new
generation each time it is emptied, and a node whose id is not retired stays: it has the parent
that it had, and lists the children that stay under the keys that they had. -/
structure Retires (before after : Model) (retired : List NodeId) : Prop where
  freeExact : after.FreeExact
  root : after.root = before.root
  generation : ∀ (index : Nat) (slot : Slot), before.slots[index]? = some slot →
    ∃ aged : Slot, after.slots[index]? = some aged ∧ aged.generation =
      slot.generation + UInt32.ofNat ((retired.map NodeId.index).count index)
  stays : ∀ id node, before.node? id = some node → id ∉ retired →
    ∃ content, after.node? id = some ⟨node.parent, content⟩ ∧
      ∀ key child, (key, child) ∈ node.content.named → before.contains child →
        child ∉ retired → (key, child) ∈ content.named

theorem contains_of_node? {model : Model} {id : NodeId} {node : Node}
    (node_eq : model.node? id = some node) : model.contains id := by
  rw [contains, node_eq]
  rfl

namespace Retires

variable {first second third : Model} {retired more : List NodeId}

theorem refl {model : Model} (exact : model.FreeExact) : Retires model model [] where
  freeExact := exact
  root := rfl
  generation _ slot slot_eq := ⟨slot, slot_eq, (UInt32.add_zero _).symm⟩
  stays _ node node_eq _ := ⟨node.content, node_eq, fun _ _ listed _ _ => listed⟩

/-- A node that is not retired is still there. -/
theorem contains (step : Retires first second retired) {id : NodeId} (live : first.contains id)
    (kept : id ∉ retired) : second.contains id := by
  obtain ⟨node, node_eq⟩ := Option.isSome_iff_exists.1 live
  obtain ⟨content, after_eq, -⟩ := step.stays id node node_eq kept
  exact contains_of_node? after_eq

theorem trans (one : Retires first second retired) (two : Retires second third more) :
    Retires first third (retired ++ more) where
  freeExact := two.freeExact
  root := two.root.trans one.root
  generation index slot slot_eq := by
    obtain ⟨aged, aged_eq, once⟩ := one.generation index slot slot_eq
    obtain ⟨older, older_eq, twice⟩ := two.generation index aged aged_eq
    refine ⟨older, older_eq, ?_⟩
    rw [twice, once, List.map_append, List.count_append, UInt32.ofNat_add, UInt32.add_assoc]
  stays id node node_eq kept := by
    rw [List.mem_append, not_or] at kept
    obtain ⟨content, between, listed_between⟩ := one.stays id node node_eq kept.1
    obtain ⟨last, last_eq, listed_last⟩ := two.stays id _ between kept.2
    refine ⟨last, last_eq, fun key child listed live child_kept => ?_⟩
    rw [List.mem_append, not_or] at child_kept
    exact listed_last key child (listed_between key child listed live child_kept.1)
      (one.contains live child_kept.1) child_kept.2

end Retires

/-! ### Steps on single slots -/

variable {model after : Model} {retired : List NodeId}

/-- A new node takes the slot of no other. -/
theorem retires_allocate (exact : model.FreeExact) (parent : Option NodeId) (content : Content) :
    Retires model (model.allocate parent content).1 [] where
  freeExact := freeExact_allocate exact parent content
  root := (changes_allocate exact parent content).root
  generation index slot slot_eq := by
    simp only [List.map_nil, List.count_nil, allocate]
    cases model.free with
    | nil =>
        have within := (Array.getElem?_eq_some_iff.1 slot_eq).1
        refine ⟨slot, ?_, (UInt32.add_zero _).symm⟩
        rw [Array.getElem?_push_lt within, ← slot_eq, Array.getElem?_eq_getElem within]
    | cons taken free =>
        dsimp only
        rw [Array.getElem?_modify]
        split
        · exact ⟨{ slot with node := some ⟨parent, content⟩ }, by rw [slot_eq, Option.map_some],
            (UInt32.add_zero _).symm⟩
        · exact ⟨slot, slot_eq, (UInt32.add_zero _).symm⟩
  stays id node node_eq _ := by
    refine ⟨node.content, ?_, fun _ _ listed _ _ => listed⟩
    rw [node?_allocate exact, if_neg]
    · exact node_eq
    · rintro rfl
      rw [node?_of_allocate exact] at node_eq
      cases node_eq

/-- Emptying the slot of a node retires its id. -/
theorem retires_vacate (exact : model.FreeExact) {id : NodeId} (live : model.contains id) :
    Retires model (model.vacate id) [id] where
  freeExact := freeExact_vacate exact id
  root := (changes_vacate exact id).root
  generation index slot slot_eq := by
    rw [vacate, if_pos live]
    dsimp only
    rw [Array.getElem?_modify]
    by_cases same : id.index = index
    · refine ⟨_, by rw [if_pos same, slot_eq, Option.map_some], ?_⟩
      rw [List.map_singleton, same, List.count_singleton_self]
      rfl
    · refine ⟨slot, by rw [if_neg same, slot_eq], ?_⟩
      rw [List.map_singleton, List.count_singleton, if_neg (by simpa using same)]
      exact (UInt32.add_zero _).symm
  stays other node node_eq kept := by
    refine ⟨node.content, ?_, fun _ _ listed _ _ => listed⟩
    rw [node?_vacate, if_neg (mt List.mem_singleton.2 kept), node_eq]

/-- Changing a node leaves the generations of all slots. -/
theorem exists_slot_modifyNode (model : Model) (id : NodeId) (change : Node → Node) {index : Nat}
    {slot : Slot} (slot_eq : model.slots[index]? = some slot) :
    ∃ changed, (model.modifyNode id change).slots[index]? = some changed ∧
      changed.generation = slot.generation := by
  rw [modifyNode]
  dsimp only
  rw [Array.getElem?_modify]
  split
  · refine ⟨_, by rw [slot_eq, Option.map_some], ?_⟩
    split <;> rfl
  · exact ⟨slot, slot_eq, rfl⟩

theorem contains_setContent {id other : NodeId} {content : Content} (live : model.contains id) :
    (model.setContent other content).contains id := by
  obtain ⟨node, node_eq⟩ := Option.isSome_iff_exists.1 live
  rw [contains, setContent, node?_modifyNode]
  split
  · rename_i same
    rw [← same, node_eq]
    rfl
  · exact live

/-- A node is told what it holds before the nodes are removed that it does not list any more. -/
theorem Retires.rewired {id : NodeId} {content : Content}
    (step : Retires (model.setContent id content) after retired)
    (lost : ∀ node, model.node? id = some node → ∀ key child, (key, child) ∈ node.content.named →
      model.contains child → child ∉ retired → (key, child) ∈ content.named) :
    Retires model after retired where
  freeExact := step.freeExact
  root := step.root
  generation index slot slot_eq := by
    obtain ⟨changed, changed_eq, same⟩ := exists_slot_modifyNode model id
      (fun node => { node with content }) slot_eq
    rw [← same]
    exact step.generation index changed changed_eq
  stays other node node_eq kept := by
    by_cases same : other = id
    · subst same
      obtain ⟨last, last_eq, listed_last⟩ :=
        step.stays other _ (node?_setContent node_eq content) kept
      exact ⟨last, last_eq, fun key child listed live child_kept =>
        listed_last key child (lost node node_eq key child listed live child_kept)
          (contains_setContent live) child_kept⟩
    · have same_node : (model.setContent id content).node? other = some node := by
        rw [setContent, node?_modifyNode, if_neg same, node_eq]
      obtain ⟨last, last_eq, listed_last⟩ := step.stays other node same_node kept
      exact ⟨last, last_eq, fun key child listed live =>
        listed_last key child listed (contains_setContent live)⟩

/-- Nothing is retired when a node gets other contents with the same children and maybe more. -/
theorem retires_setContent (exact : model.FreeExact) {id : NodeId} {content : Content}
    (kept : ∀ node, model.node? id = some node → node.content.named ⊆ content.named) :
    Retires model (model.setContent id content) [] :=
  (Retires.refl (freeExact_modifyNode exact id _)).rewired
    fun node node_eq _ _ listed _ _ => kept node node_eq listed

/-- A node that points to its parent already stays there. -/
theorem retires_setParent (exact : model.FreeExact) {id parent : NodeId}
    (pointed : ∀ node, model.node? id = some node → node.parent = some parent) :
    Retires model (model.setParent id parent) [] where
  freeExact := freeExact_modifyNode exact id _
  root := rfl
  generation index slot slot_eq := by
    obtain ⟨changed, changed_eq, same⟩ := exists_slot_modifyNode model id
      (fun node => { node with parent := some parent }) slot_eq
    exact ⟨changed, changed_eq, same.trans (UInt32.add_zero _).symm⟩
  stays other node node_eq _ := by
    refine ⟨node.content, ?_, fun _ _ listed _ _ => listed⟩
    rw [setParent, node?_modifyNode]
    split
    · rename_i same
      rw [← same, node_eq, Option.map_some, pointed node (same ▸ node_eq)]
    · exact node_eq

/-! ### Paths -/

namespace Retires

variable {layout left : Layout}

/-- A node that stays stands at the same keys, if every node that is there before and after the
step stays. -/
theorem standsAt (step : Retires model after retired) (intact : model.Intact layout)
    (after_intact : after.Intact left)
    (stayed : ∀ id, model.contains id → after.contains id → id ∉ retired) {trail : List String}
    {target : Layout} (stands : layout.StandsAt trail target) (live : after.contains target.id) :
    ∃ same, left.StandsAt trail same ∧ same.id = target.id := by
  induction trail using List.reverseRecOn generalizing target with
  | nil =>
      cases stands
      exact ⟨left, rfl, by rw [after_intact.at_root, step.root, intact.at_root]⟩
  | append_singleton trail key induction_step =>
      obtain ⟨middle, upper, has_kid⟩ := Layout.standsAt_concat.1 stands
      obtain ⟨above, middle_holds⟩ := intact.stores.holds.standsAt_holds upper
      have target_holds := middle_holds.kid_holds has_kid.mem_kids
      have was_live := target_holds.live target.id_mem_ids
      have kept := stayed _ was_live live
      -- The parent stays as well, since the node still points to it.
      obtain ⟨content, target_eq, -⟩ := step.stays _ _ target_holds.here kept
      have points : after.PointsTo target.id middle.id := by
        rw [PointsTo, parent?, target_eq, Option.bind_some]
      have middle_live : after.contains middle.id := by
        rcases eq_or_ne target.id after.root with is_root | not_root
        · have no_parent := after_intact.wellFormed.rootTop
          rw [← is_root, points] at no_parent
          cases no_parent
        · obtain ⟨parent, node, points_to, node_eq, -⟩ :=
            after_intact.wellFormed.listedOnce _ live not_root
          rw [PointsTo, points, Option.some.injEq] at points_to
          exact points_to ▸ contains_of_node? node_eq
      obtain ⟨same, same_stands, same_id⟩ := induction_step upper middle_live
      have middle_kept := stayed _ (middle_holds.live middle.id_mem_ids) middle_live
      obtain ⟨listed, middle_eq, still_listed⟩ := step.stays _ _ middle_holds.here middle_kept
      have still_named := still_listed key target.id (mem_named_iff.2 ⟨target, has_kid, rfl⟩)
        was_live kept
      obtain ⟨_, same_holds⟩ := after_intact.stores.holds.standsAt_holds same_stands
      rw [← same_id, same_holds.here, Option.some.injEq, Node.mk.injEq] at middle_eq
      rw [← middle_eq.2] at still_named
      obtain ⟨kid, kid_has, kid_id⟩ := mem_named_iff.1 still_named
      exact ⟨kid, Layout.standsAt_concat.2 ⟨same, same_stands, kid_has⟩, kid_id⟩

/-- A node that stays keeps its path. -/
theorem pathOf?_eq (step : Retires model after retired) (intact : model.Intact layout)
    (after_intact : after.Intact left)
    (stayed : ∀ id, model.contains id → after.contains id → id ∉ retired) {id : NodeId}
    (live : model.contains id) (still : after.contains id) :
    after.pathOf? id = model.pathOf? id := by
  obtain ⟨trail, target, stands, rfl⟩ := intact.exists_standsAt_of_contains live
  rw [intact.pathOf?_of_standsAt stands, after_intact.pathOf?_eq_some_iff]
  exact step.standsAt intact after_intact stayed stands still

end Retires

end VesselHub.Model
