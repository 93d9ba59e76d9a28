/-
Module: VesselHub.Proofs.Model.NothingApplied
Purpose: Deltas none of whose values is applied. They still create the branch of their context, and
  whatever leaf or array stands there or on the way is made an object and loses its leaves.
Main exports: Tree.opened, Tree.leafTrails_opened_changeAt_iff,
  Model.leaves_of_nothing_applied_iff, Model.spoiltSpeed_destroys_name
-/
import VesselHub.Proofs.Model.Rebuild
import VesselHub.Proofs.Model.WellFormed
import VesselHub.Proofs.Tree.Within

namespace VesselHub

namespace Tree

/-- The object that is made of a branch. A leaf or an array leaves nothing behind in it. -/
def opened (tree : Tree) : Tree :=
  .object tree.childrenOf

theorem leafTrails_opened (tree : Tree) : tree.opened.leafTrails = childTrails tree.childrenOf := by
  rw [opened, leafTrails]

theorem leafTrails_opened_sublist (tree : Tree) :
    tree.opened.leafTrails.Sublist tree.leafTrails := by
  cases tree with
  | object children => exact .refl _
  | array items => exact List.nil_sublist _
  | leaf held => exact List.nil_sublist _

/-- A branch that is made an object keeps its leaves if it is one, or has none. -/
theorem leafTrails_opened_eq_iff (tree : Tree) :
    tree.opened.leafTrails = tree.leafTrails ↔ tree.IsObject ∨ tree.leaves = [] := by
  rw [leaves, List.map_eq_nil_iff]
  cases tree with
  | object children => exact ⟨fun _ => Or.inl ⟨children, rfl⟩, fun _ => rfl⟩
  | array items =>
      have no_object : ¬(array items).IsObject := by
        rintro ⟨children, same⟩
        cases same
      rw [or_iff_right no_object]
      exact eq_comm
  | leaf held =>
      have no_object : ¬(leaf held).IsObject := by
        rintro ⟨children, same⟩
        cases same
      rw [or_iff_right no_object]
      exact eq_comm

theorem childTrails_append (children more : List (String × Tree)) :
    childTrails (children ++ more) = childTrails children ++ childTrails more := by
  induction children with
  | nil => rfl
  | cons entry children induction_step =>
      obtain ⟨key, child⟩ := entry
      rw [List.cons_append, childTrails, childTrails, induction_step, List.append_assoc]

/-- Objects along new keys hold no leaf. -/
theorem leafTrails_empty_changeAt (keys : List String) :
    (empty.opened.changeAt keys id).leafTrails = [] := by
  induction keys with
  | nil => rfl
  | cons key keys induction_step =>
      exact (List.append_nil _).trans (List.map_eq_nil_iff.2 induction_step)

/-- The objects along keys are made child by child. -/
theorem opened_changeAt_cons (tree : Tree) (key : String) (keys : List String) :
    tree.opened.changeAt (key :: keys) id = .object (Entries.insert tree.childrenOf key
      (((Entries.get? tree.childrenOf key).getD empty).opened.changeAt keys id)) := rfl

theorem childTrails_insert_of_none {children : List (String × Tree)} {key : String}
    (absent : Entries.get? children key = none) {child : Tree} (no_leaf : child.leafTrails = []) :
    childTrails (Entries.insert children key child) = childTrails children := by
  rw [Entries.insert_of_not_mem ((Entries.get?_eq_none_iff children key).1 absent),
    childTrails_append, childTrails, no_leaf]
  exact List.append_nil _

theorem childTrails_insert_of_some {children : List (String × Tree)} {key : String} {child : Tree}
    (found : Entries.get? children key = some child) {new : Tree}
    (fewer : new.leafTrails.Sublist child.leafTrails) :
    (childTrails (Entries.insert children key new)).Sublist (childTrails children) ∧
      (childTrails (Entries.insert children key new) = childTrails children ↔
        new.leafTrails = child.leafTrails) := by
  obtain ⟨before, after, rfl, absent⟩ := Entries.exists_split_of_get? found
  rw [Entries.insert_of_split absent, childTrails_append, childTrails_append, childTrails,
    childTrails]
  refine ⟨(List.Sublist.refl _).append ((fewer.map _).append (.refl _)), ?_⟩
  rw [List.append_cancel_left_eq, List.append_cancel_right_eq]
  refine (List.map_injective_iff.2 ?_).eq_iff
  rintro ⟨trail, held⟩ ⟨other, twin⟩ same
  simpa using same

/-- Making the objects along keys adds no leaf. -/
theorem leafTrails_opened_changeAt_sublist (tree : Tree) (keys : List String) :
    (tree.opened.changeAt keys id).leafTrails.Sublist tree.leafTrails := by
  induction keys generalizing tree with
  | nil => exact tree.leafTrails_opened_sublist
  | cons key keys induction_step =>
      refine .trans ?_ tree.leafTrails_opened_sublist
      rw [opened_changeAt_cons, leafTrails, leafTrails_opened]
      cases found : Entries.get? tree.childrenOf key with
      | none =>
          rw [Option.getD_none, childTrails_insert_of_none found (leafTrails_empty_changeAt keys)]
      | some child => exact (childTrails_insert_of_some found (induction_step child)).1

/-- No leaf is lost along keys if none is lost at the top, and none below the first key. -/
theorem leafTrails_opened_changeAt_cons_iff (tree : Tree) (key : String) (keys : List String) :
    (tree.opened.changeAt (key :: keys) id).leafTrails = tree.leafTrails ↔
      tree.opened.leafTrails = tree.leafTrails ∧
        ∀ child, Entries.get? tree.childrenOf key = some child →
          (child.opened.changeAt keys id).leafTrails = child.leafTrails := by
  have at_top := tree.leafTrails_opened_sublist
  rw [opened_changeAt_cons, leafTrails]
  rw [leafTrails_opened] at at_top ⊢
  cases found : Entries.get? tree.childrenOf key with
  | none =>
      rw [Option.getD_none, childTrails_insert_of_none found (leafTrails_empty_changeAt keys)]
      exact (and_iff_left fun child is_child =>
        absurd is_child (Option.some_ne_none child).symm).symm
  | some child =>
      obtain ⟨below, below_iff⟩ := childTrails_insert_of_some found
        (child.leafTrails_opened_changeAt_sublist keys)
      rw [Option.getD_some]
      constructor
      · intro same
        have top_same := at_top.eq_of_length_le (same ▸ below.length_le)
        refine ⟨top_same, fun other is_child => ?_⟩
        exact Option.some.inj is_child ▸ below_iff.1 (same.trans top_same.symm)
      · rintro ⟨top_same, below_same⟩
        exact (below_iff.2 (below_same child rfl)).trans top_same

/-- Making the objects along keys keeps the leaves if and only if there are objects along them
already, or branches without leaves. -/
theorem leafTrails_opened_changeAt_iff (tree : Tree) (keys : List String) :
    (tree.opened.changeAt keys id).leafTrails = tree.leafTrails ↔
      ∀ front, front <+: keys → ∀ branch, tree.within? front = some branch →
        branch.IsObject ∨ branch.leaves = [] := by
  induction keys generalizing tree with
  | nil =>
      rw [changeAt, id, leafTrails_opened_eq_iff]
      constructor
      · intro stays front at_top branch here
        rw [List.prefix_nil.1 at_top] at here
        exact Option.some.inj here ▸ stays
      · exact fun clear => clear [] List.nil_prefix tree rfl
  | cons key keys induction_step =>
      rw [leafTrails_opened_changeAt_cons_iff, leafTrails_opened_eq_iff]
      constructor
      · rintro ⟨stays, below⟩ front on_way branch here
        cases front with
        | nil => exact Option.some.inj here ▸ stays
        | cons first front =>
            obtain ⟨rfl, front_on_way⟩ := List.cons_prefix_cons.1 on_way
            obtain ⟨child, found, here⟩ := Option.bind_eq_some_iff.1 here
            exact (induction_step child).1 (below child found) front front_on_way branch here
      · intro clear
        refine ⟨clear [] List.nil_prefix tree rfl, fun child found => ?_⟩
        refine (induction_step child).2 fun front on_way branch here => ?_
        refine clear (key :: front) (List.cons_prefix_cons.2 ⟨rfl, on_way⟩) branch ?_
        rw [within?, found]
        exact here

/-- The leaves of a tree are the same again if and only if none is lost. -/
theorem leaves_changeAt_id_iff (tree : Tree) (keys : List String) :
    (tree.changeAt keys id).leaves = tree.leaves ↔ keys = [] ∨
      ∀ front, front <+: keys → ∀ branch, tree.within? front = some branch →
        branch.IsObject ∨ branch.leaves = [] := by
  cases keys with
  | nil => exact ⟨fun _ => Or.inl rfl, fun _ => rfl⟩
  | cons key keys =>
      have fewer := tree.leafTrails_opened_changeAt_sublist (key :: keys)
      have kept_iff := tree.leafTrails_opened_changeAt_iff (key :: keys)
      change ((tree.changeAt (key :: keys) id).leafTrails).Sublist _ at fewer
      change (tree.changeAt (key :: keys) id).leafTrails = _ ↔ _ at kept_iff
      rw [or_iff_right (List.cons_ne_nil key keys), ← kept_iff, leaves, leaves]
      constructor
      · intro same
        have same_length := congrArg List.length same
        rw [List.length_map, List.length_map] at same_length
        exact fewer.eq_of_length same_length
      · exact congrArg _

end Tree

namespace Model

/-- The leaves of an intact model are those of its tree. -/
theorem Intact.leaves_eq {model : Model} {layout : Layout} (intact : model.Intact layout) :
    model.leaves model.root = model.tree.leaves := by
  rw [leaves, treeAt?, if_pos intact.wellFormed.rootLive]
  rfl

/-- A delta that applies no value creates the branch of its context, if it has any batch. -/
theorem tree_of_nothing_applied {model : Model} {layout : Layout} (intact : model.Intact layout)
    (now : Instant) {delta : Delta} (nothing : (model.applyDelta now delta).2.applied = 0) :
    let keys := (model.resolver.resolve (model.resolver.resolve delta.context).raw).segments
    (model.applyDelta now delta).1.tree =
      if delta.batches = [] then model.tree else model.tree.changeAt keys id := by
  intro keys
  obtain ⟨becomes, report_eq⟩ := receives_applyDelta intact now delta
  rw [report_eq] at nothing
  have no_sum := (Nat.zero_add _).symm.trans nothing
  rw [List.sum_eq_zero_iff_forall_eq_nat] at no_sum
  have none_accepted : ∀ batch ∈ delta.batches, batch.accepted = [] := fun batch member =>
    List.eq_nil_of_length_eq_zero (no_sum _ (List.mem_map_of_mem member))
  rw [becomes.tree_eq]
  split
  · rename_i no_batch
    rw [no_batch, List.map_nil, Tree.receiveBatches, List.foldl_nil]
  · rename_i some_batch
    have no_arrival : (delta.batches.map (Batch.arrivals model.resolver keys)).flatten = [] := by
      rw [List.flatten_eq_nil_iff, List.forall_mem_map]
      intro batch member
      rw [Batch.arrivals, none_accepted batch member, List.map_nil]
    have none_below : ∀ arrival ∈ (delta.batches.map (Batch.arrivals model.resolver keys)).flatten,
        keys <+: arrival.branch := by
      rw [no_arrival]
      exact nofun
    rw [Tree.receiveBatches_eq (mt List.map_eq_nil_iff.1 some_batch) none_below, no_arrival,
      Tree.receiveAll, List.foldl_nil]

/-- A delta that applies no value leaves the same leaves if and only if it has neither values nor
updates, or its context is the root, or only objects and branches without leaves stand at the
context and on the way to it. -/
theorem leaves_of_nothing_applied_iff (id : String) (operations : List Operation) (now : Instant)
    (delta : Delta) (nothing : ((run id operations).applyDelta now delta).2.applied = 0) :
    let model := run id operations
    let after := (model.applyDelta now delta).1
    let keys := (model.resolver.resolve (model.resolver.resolve delta.context).raw).segments
    after.leaves after.root = model.leaves model.root ↔
      (delta.values = [] ∧ delta.updates = []) ∨ keys = [] ∨
        ∀ front, front <+: keys → ∀ branch, model.tree.within? front = some branch →
          branch.IsObject ∨ branch.leaves = [] := by
  intro model after keys
  obtain ⟨layout, intact⟩ := run_intact id operations
  obtain ⟨after_layout, after_intact, -⟩ := intact_applyDelta intact now delta
  rw [after_intact.leaves_eq, intact.leaves_eq, tree_of_nothing_applied intact now nothing,
    ← Delta.batches_eq_nil_iff]
  split
  · rename_i no_batch
    exact ⟨fun _ => Or.inl no_batch, fun _ => rfl⟩
  · rename_i some_batch
    rw [or_iff_right some_batch]
    exact Tree.leaves_changeAt_id_iff _ _

/-- The name of the local vessel. -/
def named : Delta where
  context := "vessels.self"
  source := none
  values := [⟨"name", .string "Gull", none⟩]
  updates := []

/-- A speed below a context, with a time that does not parse. -/
def spoiltSpeed (context : String) : Delta where
  context := context
  source := none
  values := [⟨"speed", .number (.int 3), some "noon"⟩]
  updates := []

/-- A speed of the local vessel that is rejected leaves its name as it is. -/
theorem spoiltSpeed_keeps_name :
    let model := run "gull" [.applyDelta ⟨7, 0⟩ named]
    let after := model.applyDelta ⟨8, 0⟩ (spoiltSpeed "vessels.self")
    after.2.applied = 0 ∧ after.1.leaves after.1.root = model.leaves model.root := by
  have nothing : ((run "gull" [.applyDelta ⟨7, 0⟩ named]).applyDelta ⟨8, 0⟩
      (spoiltSpeed "vessels.self")).2.applied = 0 := by decide +kernel
  obtain ⟨-, kept⟩ := leaves_of_nothing_applied_iff "gull" [.applyDelta ⟨7, 0⟩ named] ⟨8, 0⟩
    (spoiltSpeed "vessels.self") nothing
  refine ⟨nothing, kept (Or.inr (Or.inr ?_))⟩
  generalize tree_eq : (run "gull" [.applyDelta ⟨7, 0⟩ named]).tree = tree
  have some_child : ∀ front ∈ (((run "gull" [.applyDelta ⟨7, 0⟩ named]).resolver.resolve
      ((run "gull" [.applyDelta ⟨7, 0⟩ named]).resolver.resolve
        (spoiltSpeed "vessels.self").context).raw).segments).inits,
      ((run "gull" [.applyDelta ⟨7, 0⟩ named]).tree.within? front).all fun branch =>
        !branch.childrenOf.isEmpty := by
    decide +kernel
  rw [tree_eq] at some_child
  intro front on_way branch found
  have has_child := some_child front ((List.mem_inits ..).2 on_way)
  rw [found] at has_child
  cases branch with
  | object children => exact Or.inl ⟨children, rfl⟩
  | array items => cases has_child
  | leaf held => cases has_child

/-- A speed below the name of the local vessel is rejected, and the name is gone. -/
theorem spoiltSpeed_destroys_name :
    ¬ ∀ (id : String) (operations : List Operation) (now : Instant) (delta : Delta),
      ((run id operations).applyDelta now delta).2.applied = 0 →
        let model := run id operations
        let after := (model.applyDelta now delta).1
        after.leaves after.root = model.leaves model.root := by
  intro always
  have same := congrArg List.length (always "gull" [.applyDelta ⟨7, 0⟩ named] ⟨8, 0⟩
    (spoiltSpeed "vessels.self.name") (by decide +kernel))
  revert same
  decide +kernel

end Model

end VesselHub
