/-
Module: VesselHub.Proofs.Model.Apply
Purpose: Applying deltas. A delta creates the branch of its context, and the values that are
  accepted arrive below it, one after the other, and are counted. Each of them writes one leaf.
Main exports: Batch.arrivals, Model.ContextAt, Model.receives_writeAccepted,
  Model.receives_applyDelta, Tree.writeAll, Batch.Writes, Model.applyDelta_spec
-/
import Mathlib.Algebra.GroupWithZero.Nat
import VesselHub.Model.Apply
import VesselHub.Proofs.Model.Intact
import VesselHub.Proofs.Tree.Receive

namespace VesselHub

theorem exists_left_of_forall₂ {Left Right : Type} {relation : Left → Right → Prop}
    {lefts : List Left} {rights : List Right} (related : List.Forall₂ relation lefts rights)
    {right : Right} (member : right ∈ rights) : ∃ left ∈ lefts, relation left right := by
  induction related with
  | nil => cases member
  | cons first _ induction_step =>
      rcases List.mem_cons.1 member with rfl | later
      · exact ⟨_, List.mem_cons_self, first⟩
      · obtain ⟨left, left_mem, holds⟩ := induction_step later
        exact ⟨left, List.mem_cons_of_mem _ left_mem, holds⟩

theorem exists_right_of_forall₂ {Left Right : Type} {relation : Left → Right → Prop}
    {lefts : List Left} {rights : List Right} (related : List.Forall₂ relation lefts rights)
    {left : Left} (member : left ∈ lefts) : ∃ right ∈ rights, relation left right :=
  exists_left_of_forall₂ related.flip member

/-- The path that a text means below the branch at keys: the alias is known below the root
only. -/
def Resolver.pathBelow (resolver : Resolver) (keys : List String) (text : String) : Path :=
  if keys = [] then resolver.resolve text else Path.ofText text

/-- An accepted value as it arrives below the branch at keys. -/
def AcceptedValue.arrival (accepted : AcceptedValue) (resolver : Resolver) (keys : List String)
    (source : String) : Arrival where
  branch := keys ++ (resolver.pathBelow keys accepted.branch).segments
  key := accepted.key
  value := accepted.value
  source := source
  stamp := accepted.stamp

namespace Batch

/-- The values among those of a batch that can be written. -/
def acceptedAmong (batch : Batch) (items : List PathValue) : List AcceptedValue :=
  items.filterMap fun item => (batch.accept item).toOption

/-- The values of a batch that can be written. -/
def accepted (batch : Batch) : List AcceptedValue :=
  batch.acceptedAmong batch.values

theorem mem_accepted {batch : Batch} {value : AcceptedValue} :
    value ∈ batch.accepted ↔ ∃ item ∈ batch.values, batch.accept item = .ok value := by
  rw [accepted, acceptedAmong, List.mem_filterMap]
  apply exists_congr
  intro item
  apply and_congr_right
  intro is_value
  cases batch.accept item <;> simp [Except.toOption]

/-- An accepted value is split off its path: the last key, and the text of the keys before. -/
structure Accepts (item : PathValue) (accepted : AcceptedValue) : Prop where
  last : (Path.ofText item.path).last? = some accepted.key
  branch : accepted.branch = (Path.ofText item.path).parent.raw
  value : accepted.value = item.value

theorem of_accept {batch : Batch} {item : PathValue} {accepted : AcceptedValue}
    (accept_eq : batch.accept item = .ok accepted) : Accepts item accepted := by
  rw [accept] at accept_eq
  cases last : (Path.ofText item.path).last? with
  | none =>
      simp only [last] at accept_eq
      cases accept_eq
  | some key =>
      simp only [last] at accept_eq
      cases given : item.timestamp.or batch.timestamp with
      | none =>
          simp only [given] at accept_eq
          obtain rfl := Except.ok.inj accept_eq
          exact ⟨last, rfl, rfl⟩
      | some raw =>
          simp only [given] at accept_eq
          cases parsed : Instant.parse raw with
          | error reason =>
              simp only [parsed] at accept_eq
              cases accept_eq
          | ok instant =>
              simp only [parsed] at accept_eq
              obtain rfl := Except.ok.inj accept_eq
              exact ⟨last, rfl, rfl⟩

theorem acceptedAmong_cons_error {batch : Batch} {item : PathValue} {refusal : Refusal}
    (refused : batch.accept item = .error refusal) (items : List PathValue) :
    batch.acceptedAmong (item :: items) = batch.acceptedAmong items :=
  List.filterMap_cons_none (by rw [refused]; rfl)

theorem acceptedAmong_cons_ok {batch : Batch} {item : PathValue} {value : AcceptedValue}
    (accept_eq : batch.accept item = .ok value) (items : List PathValue) :
    batch.acceptedAmong (item :: items) = value :: batch.acceptedAmong items :=
  List.filterMap_cons_some (by rw [accept_eq]; rfl)

/-- The values of a batch as they arrive below the branch at keys. -/
def arrivals (resolver : Resolver) (keys : List String) (batch : Batch) : List Arrival :=
  batch.accepted.map fun accepted => accepted.arrival resolver keys batch.source

end Batch

/-- Only a delta with neither values nor updates has no batch. -/
theorem Delta.batches_eq_nil_iff {delta : Delta} :
    delta.batches = [] ↔ delta.values = [] ∧ delta.updates = [] := by
  simp [batches, flatBatch]

/-- A report with more values. -/
def MergeReport.count (report : MergeReport) (applied rejected : Nat) : MergeReport :=
  { report with applied := report.applied + applied, rejected := report.rejected + rejected }

namespace Model

/-- The model is intact, and keys lead through its objects to the node of a context. -/
def ContextAt (model : Model) (keys : List String) (context : NodeId) : Prop :=
  ∃ layout target, model.Intact layout ∧ layout.Follows keys target ∧ target.id = context

private theorem pathBelow_of_contextAt {model : Model} {keys : List String} {context : NodeId}
    (at_context : model.ContextAt keys context) (text : String) :
    model.pathBelow context text = model.resolver.pathBelow keys text := by
  obtain ⟨layout, target, intact, follows, rfl⟩ := at_context
  rw [pathBelow, Resolver.pathBelow, ← intact.at_root]
  cases follows with
  | here layout => rw [if_pos rfl, if_pos rfl]
  | step found is_object rest =>
      have is_kid := Entries.mem_values_of_get? found
      have differs : target.id ≠ Layout.id (.object _ _) := fun same =>
        Layout.id_not_mem_of_mem_kids intact.stores.distinct is_kid (same ▸ rest.id_mem)
      rw [if_neg differs, if_neg (List.cons_ne_nil _ _)]

/-- What a value repeats is told from the tree. -/
private theorem unchangedSince_of_stores {model : Model} {parent : Option NodeId} {layout : Layout}
    (stored : model.Stores parent layout) (arrival : Arrival) :
    model.unchangedSince layout.id arrival.key arrival.value arrival.source =
      arrival.repeatedTime (layout.tree.child? arrival.key) := by
  rw [unchangedSince, child?_of_stores stored, Layout.tree_child?]
  cases found : layout.child? arrival.key with
  | none => rfl
  | some child =>
      have content_eq := (stored.kid (Layout.mem_kids_of_child? found)).holds.content?_eq
      simp only [Option.bind_eq_bind, Option.map_some, Option.bind_some, leaf?, content_eq]
      cases child <;> rfl

/-- At the end of a branch that is created, a value repeats what it finds in the tree as it was. -/
theorem unchangedSince_ensurePath {model : Model} {parent : Option NodeId} {layout : Layout}
    (stored : model.Stores parent layout) (branch : List String) (arrival : Arrival) :
    let ensured := model.ensurePath layout.id branch
    ensured.1.contains ensured.2 ∧
      ensured.1.unchangedSince ensured.2 arrival.key arrival.value arrival.source =
        arrival.repeatedTime ((layout.tree.through branch).child? arrival.key) := by
  intro ensured
  obtain ⟨path, last, created, follows, last_id, path_tree, -⟩ := ensurePath_spec branch stored
  obtain ⟨above, last_stored, -⟩ := stores_of_follows follows created.stores
  have sees := follows.through_eq
  rw [path_tree, Tree.through_changeAt_id] at sees
  have live := last_stored.holds.live last.id_mem_ids
  have repeats := unchangedSince_of_stores last_stored arrival
  rw [last_id] at live repeats
  rw [sees]
  exact ⟨live, repeats⟩

/-- A leaf is written at the end of a branch below a context, which stays where it is. -/
theorem writes_below_context {model : Model} {layout target : Layout} {keys : List String}
    (intact : model.Intact layout) (follows : layout.Follows keys target) (branch : List String)
    (key : String) (leaf : Leaf) :
    let ensured := model.ensurePath target.id branch
    let after := (ensured.1.setLeaf ensured.2 key leaf).1
    after.ContextAt keys target.id ∧
      Becomes model after
        (model.tree.changeAt (keys ++ (branch ++ [key])) fun _ => .leaf leaf) := by
  intro ensured after
  obtain ⟨above, stored, lifts⟩ := stores_of_follows follows intact.stores
  obtain ⟨written, replaced, written_tree⟩ := replaces_at_path branch stored
    (ensured.1.setLeaf ensured.2 key leaf).1 (fun inner => inner.changeAt [key] fun _ => .leaf leaf)
    fun end_stored end_id => end_id ▸ setLeaf_spec end_stored key leaf
  rw [← Tree.changeAt_append] at written_tree
  obtain ⟨whole, whole_replaced, whole_tree, still⟩ :=
    lifts (fun tree => tree.changeAt (branch ++ [key]) _) replaced written_tree
  obtain ⟨children, is_object⟩ := target.tree.changeAt_object
    (List.append_ne_nil_of_right_ne_nil branch (List.cons_ne_nil key [])) _
  obtain ⟨-, whole_follows⟩ := still (Layout.asObject_of_tree (written_tree.trans is_object))
  refine ⟨⟨whole, written, intact.replaced whole_replaced, whole_follows, replaced.same_id⟩,
    intact.becomes whole_replaced ?_⟩
  rw [whole_tree, ← intact.tree_eq, Tree.changeAt_append]

/-- An accepted value is received below its context, which stays where it is. -/
theorem receives_writeAccepted {model : Model} {keys : List String} {context : NodeId}
    (at_context : model.ContextAt keys context) (now : Instant) (source : String)
    (accepted : AcceptedValue) :
    ∃ after, writeAccepted now source context model accepted = some after ∧
      after.ContextAt keys context ∧
      Becomes model after
        (model.tree.receive now (accepted.arrival model.resolver keys source)) := by
  have path_eq := pathBelow_of_contextAt at_context accepted.branch
  obtain ⟨layout, target, intact, follows, rfl⟩ := at_context
  obtain ⟨above, stored, -⟩ := stores_of_follows follows intact.stores
  generalize arrival_eq : accepted.arrival model.resolver keys source = arrival
  generalize segments_eq : (model.resolver.pathBelow keys accepted.branch).segments = branch
  have branch_eq : arrival.branch = keys ++ branch := by
    rw [← arrival_eq, ← segments_eq]
    rfl
  -- What the value repeats is told from the tree before its branch is created.
  obtain ⟨last_live, repeats⟩ := unchangedSince_ensurePath stored branch arrival
  rw [← follows.through_eq, ← Tree.through_append, ← branch_eq, ← intact.tree_eq] at repeats
  obtain ⟨still, becomes⟩ := writes_below_context intact follows branch arrival.key
    (arrival.leaf now (model.tree.foundBy arrival))
  refine ⟨_, ?_, still, ?_⟩
  · rw [writeAccepted, addNode?, if_pos (stored.holds.live target.id_mem_ids), path_eq, segments_eq]
    simp only [Option.bind_eq_bind, Option.bind_some, put?]
    rw [if_pos last_live]
    simp only [Arrival.leaf, Arrival.time, Tree.foundBy, ← repeats]
    subst arrival_eq
    rfl
  · rw [Tree.receive, Arrival.path, branch_eq, List.append_assoc]
    exact becomes

/-- The values of a batch are received one after the other, and the others are counted. -/
theorem receives_applyValues {keys : List String} {context : NodeId} (now : Instant)
    (batch : Batch) (items : List PathValue) {model : Model} (report : MergeReport)
    (at_context : model.ContextAt keys context) :
    Becomes model (applyValues now batch context items model report).1
        (model.tree.receiveAll now ((batch.acceptedAmong items).map fun accepted =>
          accepted.arrival model.resolver keys batch.source)) ∧
      (applyValues now batch context items model report).2 =
        report.count (batch.acceptedAmong items).length
          (items.length - (batch.acceptedAmong items).length) := by
  induction items generalizing model report with
  | nil =>
      obtain ⟨layout, target, intact, -, -⟩ := at_context
      exact ⟨intact.becomes_refl, rfl⟩
  | cons item items induction_step =>
      have fewer : (batch.acceptedAmong items).length ≤ items.length :=
        List.length_filterMap_le ..
      cases accept_eq : batch.accept item with
      | error refusal =>
          have step_eq : applyValues now batch context (item :: items) model report =
              applyValues now batch context items model (report.addRejected 1) := by
            rw [applyValues, accept_eq]
            rfl
          obtain ⟨becomes, report_eq⟩ := induction_step (report.addRejected 1) at_context
          rw [step_eq, report_eq, Batch.acceptedAmong_cons_error accept_eq]
          refine ⟨becomes, ?_⟩
          simp only [MergeReport.count, MergeReport.addRejected, List.length_cons]
          congr 1
          omega
      | ok accepted =>
          obtain ⟨after, write_eq, still, first⟩ :=
            receives_writeAccepted at_context now batch.source accepted
          have step_eq : applyValues now batch context (item :: items) model report =
              applyValues now batch context items after report.addApplied := by
            rw [applyValues, accept_eq]
            simp only [Except.toOption, Option.bind_some, write_eq]
          obtain ⟨becomes, report_eq⟩ := induction_step report.addApplied still
          rw [first.tree_eq, first.resolver] at becomes
          rw [step_eq, report_eq, Batch.acceptedAmong_cons_ok accept_eq]
          refine ⟨first.trans becomes, ?_⟩
          simp only [MergeReport.count, MergeReport.addApplied, List.length_cons]
          congr 1 <;> omega

/-- The branch of the context is created, and then the values of the batch are received. -/
theorem receives_applyBatch {model : Model} {layout : Layout} (intact : model.Intact layout)
    (now : Instant) (context : Path) (report : MergeReport) (batch : Batch) :
    let keys := (model.resolver.resolve context.raw).segments
    Becomes model (applyBatch now context (model, report) batch).1
        ((model.tree.changeAt keys id).receiveAll now (batch.arrivals model.resolver keys)) ∧
      (applyBatch now context (model, report) batch).2 =
        report.count batch.accepted.length (batch.values.length - batch.accepted.length) := by
  intro keys
  obtain ⟨path, target, replaced, follows, target_id, path_tree, -⟩ :=
    ensurePath_spec keys intact.stores
  have created : Becomes model _ (model.tree.changeAt keys id) :=
    intact.becomes replaced (by rw [path_tree, intact.tree_eq])
  have live : model.contains model.root :=
    intact.at_root ▸ intact.stores.holds.live layout.id_mem_ids
  have branch_eq : model.addNode? model.root context.raw =
      some (model.ensurePath layout.id keys) := by
    rw [addNode?, if_pos live, pathBelow, if_pos rfl, intact.at_root]
  obtain ⟨becomes, report_eq⟩ := receives_applyValues now batch batch.values report
    ⟨path, target, intact.replaced replaced, follows, target_id⟩
  rw [created.tree_eq, created.resolver] at becomes
  simp only [applyBatch, branch_eq]
  exact ⟨created.trans becomes, report_eq⟩

/-- A delta is received batch by batch, and its values are counted. -/
theorem receives_applyDelta {model : Model} {layout : Layout} (intact : model.Intact layout)
    (now : Instant) (delta : Delta) :
    let keys := (model.resolver.resolve (model.resolver.resolve delta.context).raw).segments
    Becomes model (model.applyDelta now delta).1
        (model.tree.receiveBatches now keys
          (delta.batches.map (Batch.arrivals model.resolver keys))) ∧
      (model.applyDelta now delta).2 =
        MergeReport.start.count (delta.batches.map fun batch => batch.accepted.length).sum
          (delta.batches.map fun batch => batch.values.length - batch.accepted.length).sum := by
  intro keys
  have all : ∀ (batches : List Batch) {other : Model} {layout : Layout} (report : MergeReport),
      other.Intact layout → other.resolver = model.resolver →
        Becomes other (batches.foldl (applyBatch now (model.resolver.resolve delta.context))
            (other, report)).1
          (other.tree.receiveBatches now keys
            (batches.map (Batch.arrivals model.resolver keys))) ∧
        (batches.foldl (applyBatch now (model.resolver.resolve delta.context))
            (other, report)).2 =
          report.count (batches.map fun batch => batch.accepted.length).sum
            (batches.map fun batch => batch.values.length - batch.accepted.length).sum := by
    intro batches
    induction batches with
    | nil => exact fun _ intact _ => ⟨intact.becomes_refl, rfl⟩
    | cons batch batches induction_step =>
        intro other layout report intact same_resolver
        obtain ⟨first, first_report⟩ := receives_applyBatch intact now
          (model.resolver.resolve delta.context) report batch
        obtain ⟨between, between_intact⟩ := first.intact
        obtain ⟨becomes, report_eq⟩ := induction_step
          (applyBatch now (model.resolver.resolve delta.context) (other, report) batch).2
          between_intact (first.resolver.trans same_resolver)
        rw [first.tree_eq, same_resolver] at becomes
        refine ⟨first.trans becomes, report_eq.trans ?_⟩
        rw [first_report]
        simp only [MergeReport.count, List.map_cons, List.sum_cons, Nat.add_assoc]
  exact all delta.batches .start intact rfl

/-- A delta leaves an intact model of the same vessel. -/
theorem intact_applyDelta {model : Model} {layout : Layout} (intact : model.Intact layout)
    (now : Instant) (delta : Delta) : ∃ after, (model.applyDelta now delta).1.Intact after ∧
      (model.applyDelta now delta).1.resolver = model.resolver := by
  have becomes := (receives_applyDelta intact now delta).1
  obtain ⟨after, after_intact⟩ := becomes.intact
  exact ⟨after, after_intact, becomes.resolver⟩

end Model

/-! ### Deltas as leaves that are written -/

/-- Writes leaves at paths, one after the other. -/
def Tree.writeAll (tree : Tree) (writes : List (List String × Leaf)) : Tree :=
  writes.foldl (fun tree write => tree.changeAt write.1 fun _ => .leaf write.2) tree

/-- Creates the object at the end of keys and writes leaves, batch after batch. -/
def Tree.writeBatches (tree : Tree) (keys : List String)
    (batches : List (List (List String × Leaf))) : Tree :=
  batches.foldl (fun tree writes => (tree.changeAt keys id).writeAll writes) tree

namespace Batch

/-- A leaf that is written for an accepted value below the branch at keys. -/
structure Writes (resolver : Resolver) (keys : List String) (source : String)
    (accepted : AcceptedValue) (write : List String × Leaf) : Prop where
  path : write.1 = keys ++ ((resolver.pathBelow keys accepted.branch).segments ++ [accepted.key])
  value : write.2.value = accepted.value
  source : write.2.source = some source
  timed : write.2.timestamp.isSome
  timestamp : ∀ stamp, accepted.stamp = some stamp → write.2.timestamp = some stamp

variable {resolver : Resolver} {keys : List String}

/-- Receiving values is writing a leaf for each of them. -/
theorem exists_writes (now : Instant) (source : String) (values : List AcceptedValue)
    (tree : Tree) : ∃ writes, List.Forall₂ (Writes resolver keys source) values writes ∧
      tree.receiveAll now (values.map fun accepted => accepted.arrival resolver keys source) =
        tree.writeAll writes := by
  induction values generalizing tree with
  | nil => exact ⟨[], .nil, rfl⟩
  | cons accepted values induction_step =>
      let arrival := accepted.arrival resolver keys source
      let leaf := arrival.leaf now (tree.foundBy arrival)
      obtain ⟨writes, written, same⟩ := induction_step (tree.receive now arrival)
      refine ⟨(arrival.path, leaf) :: writes, .cons ⟨?_, rfl, rfl, rfl, ?_⟩ written, same⟩
      · exact List.append_assoc ..
      · intro stamp stamp_eq
        simp only [leaf, Arrival.leaf, Arrival.time, arrival, AcceptedValue.arrival, stamp_eq,
          Option.some_or, Option.getD_some]

/-- Batch after batch. -/
theorem exists_writeBatches (now : Instant) (batches : List Batch) (tree : Tree) :
    ∃ writes, List.Forall₂ (fun batch => List.Forall₂ (Writes resolver keys batch.source)
        batch.accepted) batches writes ∧
      tree.receiveBatches now keys (batches.map (arrivals resolver keys)) =
        tree.writeBatches keys writes := by
  induction batches generalizing tree with
  | nil => exact ⟨[], .nil, rfl⟩
  | cons batch batches induction_step =>
      obtain ⟨first_writes, first_written, first_same⟩ :=
        exists_writes now batch.source batch.accepted (tree.changeAt keys id)
      obtain ⟨writes, written, same⟩ := induction_step
        ((tree.changeAt keys id).writeAll first_writes)
      refine ⟨first_writes :: writes, .cons first_written written, ?_⟩
      rw [Tree.writeBatches, List.foldl_cons, ← Tree.writeBatches, ← same, ← first_same]
      rfl

end Batch

namespace Model

/-- A delta writes the leaves of its batches, one after the other, and counts the values. -/
theorem applyDelta_spec {model : Model} {layout : Layout} (intact : model.Intact layout)
    (now : Instant) (delta : Delta) :
    let keys := (model.resolver.resolve (model.resolver.resolve delta.context).raw).segments
    ∃ writes, List.Forall₂ (fun batch => List.Forall₂
        (Batch.Writes model.resolver keys batch.source) batch.accepted) delta.batches writes ∧
      Becomes model (model.applyDelta now delta).1 (model.tree.writeBatches keys writes) ∧
      (model.applyDelta now delta).2 =
        MergeReport.start.count (delta.batches.map fun batch => batch.accepted.length).sum
          (delta.batches.map fun batch => batch.values.length - batch.accepted.length).sum := by
  intro keys
  obtain ⟨becomes, report_eq⟩ := receives_applyDelta intact now delta
  obtain ⟨writes, written, same⟩ := Batch.exists_writeBatches now delta.batches model.tree
  exact ⟨writes, written, same ▸ becomes, report_eq⟩

/-- An inbound message leaves an intact model. -/
theorem becomes_apply {model after : Model} {layout : Layout} (intact : model.Intact layout)
    (now : Instant) (message : Json) {report : MergeReport}
    (applied : model.apply now message = .ok (after, report)) :
    ∃ tree, Becomes model after tree := by
  unfold apply at applied
  split at applied
  · cases applied
    exact ⟨_, becomes_merge intact message⟩
  · split at applied
    · cases applied
    · split at applied
      · rename_i delta _
        obtain rfl : (model.applyDelta now delta).1 = after :=
          congrArg Prod.fst (Except.ok.inj applied)
        obtain ⟨writes, _, becomes, _⟩ := applyDelta_spec intact now delta
        exact ⟨_, becomes⟩
      · cases applied

end Model

end VesselHub
