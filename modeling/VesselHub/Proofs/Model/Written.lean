/-
Module: VesselHub.Proofs.Model.Written
Purpose: What a delta writes, value by value. Each value is counted once, the last accepted value
  that overlaps a path settles what stands there, and a leaf that no accepted value overlaps stays
  where it is.
Main exports: Delta.Entry, Delta.entries, Delta.cut, Delta.Written, Model.applyDelta_written
-/
import Mathlib.Algebra.BigOperators.Group.List.Basic
import VesselHub.Proofs.Model.Commute
import VesselHub.Proofs.Tree.Renewed
import VesselHub.Proofs.Tree.Standing

namespace VesselHub

namespace Delta

/-- A value of a delta, with what the update that it stands in says of its source and its time.
Flat values stand in no update. -/
structure Entry where
  item : PathValue
  sourceRef : Option String
  source : Option Source
  timestamp : Option String

end Delta

/-- The values of an update. -/
def Update.entries (update : Update) : List Delta.Entry :=
  update.values.map fun item =>
    { item, sourceRef := update.sourceRef, source := update.source, timestamp := update.timestamp }

/-- Updates without the values behind the first ones. -/
def Update.cutAll : Nat → List Update → List Update
  | _, [] => []
  | count, update :: updates =>
      { update with values := update.values.take count } ::
        cutAll (count - update.values.length) updates

namespace Delta

/-- The values of a delta in the order in which they are applied. -/
def entries (delta : Delta) : List Entry :=
  (delta.values.map fun item => { item, sourceRef := none, source := none, timestamp := none }) ++
    delta.updates.flatMap Update.entries

/-- The delta without the values behind the first ones. -/
def cut (delta : Delta) (count : Nat) : Delta :=
  { delta with
    values := delta.values.take count
    updates := Update.cutAll (count - delta.values.length) delta.updates }

namespace Entry

variable (delta : Delta) (entry : Entry)

/-- The source that is stored: that which the update describes, or names, or that of the delta. -/
def sourceName : String :=
  (((entry.source.map Source.provenance).or entry.sourceRef).or
    (delta.source.map Source.provenance)).getD unknownSource

/-- The effective timestamp as it was written: that of the value, of the update, of its source or of
the source of the delta. -/
def timeText : Option String :=
  entry.item.timestamp.or ((entry.timestamp.or (entry.source.bind Source.timestamp)).or
    (delta.source.bind Source.timestamp))

/-- The effective timestamp, if there is one. -/
def time : Except TimeError (Option Instant) :=
  match entry.timeText delta with
  | none => .ok none
  | some text => (Instant.parse text).map some

/-- The path has a segment, and the effective timestamp, if there is one, parses. -/
def isAccepted : Bool :=
  !(Path.ofText entry.item.path).isEmpty && (entry.time delta).toOption.isSome

/-- The path from the root: the resolved context and then the path of the value. -/
def fullPath (resolver : Resolver) : Path :=
  (resolver.resolve delta.context).join entry.item.path

/-- The time that is stored where a leaf or nothing stands: the effective timestamp, or that of a
leaf with an equal value from the same source, or the time of receipt. -/
def storedTime (now : Instant) (standing : Option Leaf) : Instant :=
  match entry.time delta with
  | .ok (some stamp) => stamp
  | _ =>
      (standing.bind fun held =>
        if held.value.same entry.item.value ∧ held.source = some (entry.sourceName delta)
        then held.timestamp else none).getD now

/-- The leaf that is stored where a leaf or nothing stands. -/
def storedLeaf (now : Instant) (standing : Option Leaf) : Leaf where
  value := entry.item.value
  source := some (entry.sourceName delta)
  timestamp := some (entry.storedTime delta now standing)

end Entry

end Delta

/-- One of two lists of keys leads on from the other, or they are the same. -/
def Path.Overlap (keys others : List String) : Prop :=
  keys <+: others ∨ others <+: keys

/-- The leaf that keys lead to through objects only. -/
def Tree.leafWithin? (tree : Tree) (keys : List String) : Option Leaf :=
  match tree.within? keys with
  | some (.leaf held) => some held
  | _ => none

/-- What a delta leaves behind that is applied to a model. -/
structure Delta.Written (delta : Delta) (now : Instant) (model : Model)
    (after : Model × MergeReport) : Prop where
  /-- Every value is counted once. -/
  counted : after.2.applied + after.2.rejected = delta.entries.length
  applied : after.2.applied = delta.entries.countP (·.isAccepted delta)
  rejected : after.2.rejected = delta.entries.countP (!·.isAccepted delta)
  /-- An accepted value that no later accepted one overlaps is found at its path, with a time that
  depends on the leaf that stood there when the values before it had been applied. -/
  lasting : ∀ position entry, delta.entries[position]? = some entry → entry.isAccepted delta →
    (∀ later ∈ delta.entries.drop (position + 1), later.isAccepted delta →
      ¬ Path.Overlap (later.fullPath delta model.resolver).segments
        (entry.fullPath delta model.resolver).segments) →
    let moment := (model.applyDelta now (delta.cut position)).1
    let path := entry.fullPath delta model.resolver
    ∃ node, after.1.nodeAt? path.raw = some node ∧ after.1.leaf? node =
      some (entry.storedLeaf delta now (moment.tree.leafWithin? path.segments))
  /-- A leaf below objects that no accepted value overlaps stays, unless it stands at the context or
  above it, which can only be if no value is accepted. -/
  elsewhere : ∀ trail held, (trail, held) ∈ model.tree.leafTrails → model.tree.MeetsNoArray trail →
    (∀ entry ∈ delta.entries, entry.isAccepted delta →
      ¬ Path.Overlap (entry.fullPath delta model.resolver).segments trail) →
    ((trail, held) ∈ after.1.tree.leafTrails ↔ (delta.values = [] ∧ delta.updates = []) ∨
      ¬ trail <+: (model.resolver.resolve delta.context).segments)

/-! ### Values and batches -/

namespace Delta

private theorem entries_cutAll (count : Nat) (updates : List Update) :
    (Update.cutAll count updates).flatMap Update.entries =
      (updates.flatMap Update.entries).take count := by
  induction updates generalizing count with
  | nil => rw [Update.cutAll, List.flatMap_nil, List.take_nil]
  | cons update updates induction_step =>
      rw [Update.cutAll, List.flatMap_cons, List.flatMap_cons, induction_step, List.take_append]
      simp only [Update.entries, List.map_take, List.length_map]

/-- What is left of a delta are its first values. -/
theorem entries_cut (delta : Delta) (count : Nat) :
    (delta.cut count).entries = delta.entries.take count := by
  rw [entries, entries, List.take_append, List.length_map, ← List.map_take, ← entries_cutAll]
  rfl

namespace Entry

/-- The value as a batch of its own. -/
def batch (delta : Delta) (entry : Entry) : Batch where
  source := entry.sourceName delta
  timestamp := (entry.timestamp.or (entry.source.bind Source.timestamp)).or
    (delta.source.bind Source.timestamp)
  values := [entry.item]

/-- The value as it arrives at the tree, if it is accepted. -/
def arrival? (delta : Delta) (resolver : Resolver) (keys : List String) (entry : Entry) :
    Option Arrival :=
  ((entry.batch delta).accept entry.item).toOption.map fun accepted =>
    accepted.arrival resolver keys (entry.sourceName delta)

variable {delta : Delta} {entry : Entry}

theorem accept_eq (delta : Delta) (entry : Entry) : (entry.batch delta).accept entry.item =
    match (Path.ofText entry.item.path).last?, entry.time delta with
    | none, _ => .error .emptyPath
    | some _, .error reason => .error (.badTimestamp reason)
    | some key, .ok stamp => .ok {
        branch := (Path.ofText entry.item.path).parent.raw
        key
        value := entry.item.value
        stamp } := by
  rw [Batch.accept, time, timeText, batch]
  cases (Path.ofText entry.item.path).last? with
  | none => rfl
  | some key =>
      cases entry.item.timestamp.or ((entry.timestamp.or (entry.source.bind Source.timestamp)).or
          (delta.source.bind Source.timestamp)) with
      | none => rfl
      | some text => cases parsed : Instant.parse text <;> simp only [parsed, Except.map]

/-- A value arrives if and only if it is accepted. -/
theorem isSome_arrival? (resolver : Resolver) (keys : List String) :
    (entry.arrival? delta resolver keys).isSome = entry.isAccepted delta := by
  rw [arrival?, Option.isSome_map, accept_eq, isAccepted, Path.isEmpty, Path.last?]
  cases (Path.ofText entry.item.path).segments with
  | nil => rfl
  | cons first rest =>
      rw [List.getLast?_cons]
      cases entry.time delta <;> rfl

/-- What arrives is the value at its full path, from its source and with its own time. -/
structure Arrives (delta : Delta) (keys : List String) (entry : Entry) (arrival : Arrival) :
    Prop where
  path : arrival.path = keys ++ (Path.ofText entry.item.path).segments
  branch : keys <+: arrival.branch
  value : arrival.value = entry.item.value
  source : arrival.source = entry.sourceName delta
  stamp : entry.time delta = .ok arrival.stamp

theorem arrives_of_arrival? {resolver : Resolver} {keys : List String} (below_root : keys ≠ [])
    {arrival : Arrival} (arrives : entry.arrival? delta resolver keys = some arrival) :
    entry.Arrives delta keys arrival := by
  rw [arrival?, accept_eq, Option.map_eq_some_iff] at arrives
  obtain ⟨accepted, accepted_eq, rfl⟩ := arrives
  cases last : (Path.ofText entry.item.path).last? with
  | none =>
      rw [last] at accepted_eq
      cases accepted_eq
  | some key =>
      cases time_eq : entry.time delta with
      | error reason =>
          rw [last, time_eq] at accepted_eq
          cases accepted_eq
      | ok stamp =>
          rw [last, time_eq] at accepted_eq
          obtain rfl := Option.some.inj accepted_eq
          refine ⟨?_, List.prefix_append _ _, rfl, rfl, time_eq⟩
          rw [Arrival.path, AcceptedValue.arrival, Resolver.pathBelow, if_neg below_root,
            List.append_assoc, Path.segments_parent last]

end Entry

/-- The values of a batch arrive one by one. -/
theorem arrivals_eq_filterMap (resolver : Resolver) (keys : List String) (batch : Batch) :
    batch.arrivals resolver keys = batch.values.filterMap fun item =>
      (batch.accept item).toOption.map fun accepted =>
        accepted.arrival resolver keys batch.source := by
  rw [Batch.arrivals, Batch.accepted, Batch.acceptedAmong, List.map_filterMap]

private theorem arrivals_flatBatch (resolver : Resolver) (keys : List String) (delta : Delta) :
    delta.flatBatch.flatMap (Batch.arrivals resolver keys) =
      (delta.values.map fun item => { item, sourceRef := none, source := none, timestamp := none }
        ).filterMap (Entry.arrival? delta resolver keys) := by
  rw [flatBatch]
  split
  · rename_i no_value
    rw [List.isEmpty_iff.1 no_value]
    rfl
  · rw [List.flatMap_singleton, arrivals_eq_filterMap, List.filterMap_map]
    rfl

private theorem arrivals_updateBatch (resolver : Resolver) (keys : List String) (delta : Delta)
    (update : Update) : (delta.updateBatch update).arrivals resolver keys =
      update.entries.filterMap (Entry.arrival? delta resolver keys) := by
  have source_eq : ∀ item, (delta.updateBatch update).source =
      Entry.sourceName delta ⟨item, update.sourceRef, update.source, update.timestamp⟩ := by
    intro item
    rw [updateBatch, Entry.sourceName]
    cases update.source with
    | some source => rfl
    | none => cases update.sourceRef <;> rfl
  rw [arrivals_eq_filterMap, Update.entries, List.filterMap_map]
  congr 1
  funext item
  rw [source_eq item]
  rfl

/-- The accepted values arrive in the order of the delta. -/
theorem flatMap_arrivals (resolver : Resolver) (keys : List String) (delta : Delta) :
    delta.batches.flatMap (Batch.arrivals resolver keys) =
      delta.entries.filterMap (Entry.arrival? delta resolver keys) := by
  rw [batches, entries, List.flatMap_append, List.filterMap_append, arrivals_flatBatch,
    List.flatMap_map, List.filterMap_flatMap]
  simp only [arrivals_updateBatch]

/-! ### Counts -/

theorem sum_values (delta : Delta) :
    (delta.batches.map fun batch => batch.values.length).sum = delta.entries.length := by
  have flat : (delta.flatBatch.map fun batch => batch.values.length).sum = delta.values.length := by
    rw [flatBatch]
    split
    · rename_i no_value
      rw [List.isEmpty_iff.1 no_value]
      rfl
    · rfl
  rw [batches, entries, List.map_append, List.sum_append, flat, List.length_append, List.length_map,
    List.length_flatMap, List.map_map]
  congr 3
  funext update
  rw [Update.entries, List.length_map]
  rfl

theorem sum_accepted (delta : Delta) :
    (delta.batches.map fun batch => batch.accepted.length).sum =
      delta.entries.countP (·.isAccepted delta) := by
  have lengths := congrArg List.length (delta.flatMap_arrivals ⟨""⟩ [])
  rw [List.length_flatMap, List.length_filterMap_eq_countP] at lengths
  simp only [Batch.arrivals, List.length_map, Entry.isSome_arrival?] at lengths
  exact lengths

theorem sum_rejected (delta : Delta) :
    (delta.batches.map fun batch => batch.values.length - batch.accepted.length).sum =
      delta.entries.countP (!·.isAccepted delta) := by
  have both : (delta.batches.map fun batch => batch.values.length - batch.accepted.length).sum +
      (delta.batches.map fun batch => batch.accepted.length).sum = delta.entries.length := by
    rw [← List.sum_map_add, ← sum_values]
    congr 2
    funext batch
    exact Nat.sub_add_cancel (List.length_filterMap_le ..)
  have split := List.length_eq_countP_add_countP (Entry.isAccepted delta) (l := delta.entries)
  rw [sum_accepted, split, Nat.add_comm] at both
  simp only [Bool.not_eq_true, Bool.decide_eq_false] at both
  exact Nat.add_left_cancel both

/-! ### Full paths -/

section

variable {resolver : Resolver} {delta : Delta} {keys : List String}

namespace Entry

variable {entry : Entry}

theorem segments_fullPath (valid : resolver.IsValid) (delta : Delta) (entry : Entry) :
    (entry.fullPath delta resolver).segments =
      (resolver.resolve delta.context).segments ++ (Path.ofText entry.item.path).segments := by
  rw [fullPath, Path.join, Path.ofParts, Path.flatMap_segmentsOf]
  · rfl
  · rw [List.forall_mem_append]
    exact ⟨(Resolver.isResolved_resolve valid delta.context).plain,
      fun _ => Path.plain_of_mem_segmentsOf⟩

/-- Below a vessel, the alias cannot come up again. -/
theorem isResolved_fullPath (valid : resolver.IsValid)
    (deep : 2 ≤ (Path.ofText delta.context).segments.length) (entry : Entry) :
    (entry.fullPath delta resolver).IsResolved := by
  have context_resolved := Resolver.isResolved_resolve valid delta.context
  have plain : ∀ key ∈ (entry.fullPath delta resolver).segments, Path.IsPlain key :=
    Path.plain_ofParts _
  refine ⟨plain, fun rest is_alias => ?_, Path.segmentsOf_dotted_of_plain plain⟩
  rw [segments_fullPath valid] at is_alias
  rw [← resolver.length_segments_resolve] at deep
  match context_keys : (resolver.resolve delta.context).segments with
  | [] | [_] => simp [context_keys] at deep
  | first :: second :: below =>
      rw [context_keys, List.cons_append, List.cons_append, List.cons.injEq, List.cons.injEq]
        at is_alias
      exact context_resolved.no_alias below (by rw [context_keys, is_alias.1, is_alias.2.1])

/-- An accepted value arrives at its full path, strictly below the context. -/
theorem exists_arrival (valid : resolver.IsValid)
    (context_keys : (resolver.resolve delta.context).segments = keys) (below_root : keys ≠ [])
    (accepted : entry.isAccepted delta) :
    ∃ arrival, entry.arrival? delta resolver keys = some arrival ∧
      entry.Arrives delta keys arrival ∧
      arrival.path = (entry.fullPath delta resolver).segments := by
  rw [← isSome_arrival? resolver keys, Option.isSome_iff_exists] at accepted
  obtain ⟨arrival, arrives_eq⟩ := accepted
  have arrives := arrives_of_arrival? below_root arrives_eq
  exact ⟨arrival, arrives_eq, arrives,
    by rw [arrives.path, segments_fullPath valid, context_keys]⟩

/-- Where a value arrives, the leaf that it writes is the one that is to be stored. -/
theorem Arrives.leaf_eq {arrival : Arrival}
    (arrives : entry.Arrives delta keys arrival) (now : Instant) (tree : Tree) :
    arrival.leaf now (tree.view arrival.path) =
      entry.storedLeaf delta now (tree.leafWithin? arrival.path) := by
  have time_eq : arrival.time now (tree.within? arrival.path) =
      entry.storedTime delta now (tree.leafWithin? arrival.path) := by
    rw [Arrival.time, storedTime, arrives.stamp, Tree.leafWithin?]
    cases arrival.stamp with
    | some stamp => rfl
    | none =>
        rw [Option.none_or, ← arrives.value, ← arrives.source]
        cases tree.within? arrival.path with
        | none => rfl
        | some branch => cases branch <;> rfl
  rw [Tree.view, Tree.leaf_face, Arrival.leaf, storedLeaf, time_eq, arrives.value, arrives.source]

end Entry

/-- What arrives comes from an accepted value and arrives at the path of the value. -/
theorem exists_entry_of_mem (valid : resolver.IsValid)
    (context_keys : (resolver.resolve delta.context).segments = keys) (below_root : keys ≠ [])
    {entries : List Entry} {arrival : Arrival}
    (member : arrival ∈ entries.filterMap (Entry.arrival? delta resolver keys)) :
    keys <+: arrival.branch ∧ ∃ entry ∈ entries, entry.isAccepted delta ∧
      arrival.path = (entry.fullPath delta resolver).segments := by
  obtain ⟨entry, entry_mem, arrives_eq⟩ := List.mem_filterMap.1 member
  have arrives := Entry.arrives_of_arrival? below_root arrives_eq
  refine ⟨arrives.branch, entry, entry_mem, ?_, ?_⟩
  · rw [← Entry.isSome_arrival? resolver keys, arrives_eq, Option.isSome_some]
  · rw [arrives.path, Entry.segments_fullPath valid, context_keys]

private theorem entries_of_batches_eq_nil (no_batch : delta.batches = []) : delta.entries = [] := by
  rw [← List.length_eq_zero_iff, ← sum_values, no_batch]
  rfl

end

end Delta

namespace Tree

/-- What is found through objects stands where it is found. -/
theorem standsAt_of_within? {tree branch : Tree} {keys : List String}
    (found : tree.within? keys = some branch) : tree.StandsAt keys branch := by
  induction keys generalizing tree with
  | nil => exact (Option.some.inj found).symm
  | cons key keys induction_step =>
      obtain ⟨child, child_eq, rest⟩ := Option.bind_eq_some_iff.1 found
      cases tree with
      | object children => exact ⟨child, Entries.mem_of_get? child_eq, induction_step rest⟩
      | array items => cases child_eq
      | leaf held => cases child_eq

end Tree

namespace Model

open Delta

section

variable {model : Model} {layout : Layout} {delta : Delta} {keys : List String}

/-- A delta makes the branch of its context and then receives its values. -/
theorem tree_applyDelta (intact : model.Intact layout) (valid : model.resolver.IsValid)
    (now : Instant) (context_keys : (model.resolver.resolve delta.context).segments = keys)
    (below_root : keys ≠ []) (some_batch : delta.batches ≠ []) :
    (model.applyDelta now delta).1.tree = (model.tree.changeAt keys id).receiveAll now
      (delta.entries.filterMap (Entry.arrival? delta model.resolver keys)) := by
  have resolved := Resolver.isResolved_resolve valid delta.context
  have becomes := (receives_applyDelta intact now delta).1
  rw [Resolver.resolve_raw resolved, context_keys] at becomes
  have same_arrivals := flatMap_arrivals model.resolver keys delta
  rw [List.flatMap_def] at same_arrivals
  rw [becomes.tree_eq, Tree.receiveBatches_eq (mt List.map_eq_nil_iff.1 some_batch), same_arrivals]
  rw [same_arrivals]
  exact fun arrival member => (exists_entry_of_mem valid context_keys below_root member).1

/-- Off the way to the context, it makes no difference whether its branch is made. -/
theorem view_applyDelta_of_off_way (intact : model.Intact layout) (valid : model.resolver.IsValid)
    (now : Instant) (context_keys : (model.resolver.resolve delta.context).segments = keys)
    (below_root : keys ≠ []) {path : List String} (off_way : ¬ path <+: keys) :
    (model.applyDelta now delta).1.tree.view path =
      ((model.tree.changeAt keys id).receiveAll now
        (delta.entries.filterMap (Entry.arrival? delta model.resolver keys))).view path := by
  by_cases no_batch : delta.batches = []
  · have becomes := (receives_applyDelta intact now delta).1
    rw [no_batch] at becomes
    rw [becomes.tree_eq, entries_of_batches_eq_nil no_batch]
    change model.tree.view path = (model.tree.changeAt keys id).view path
    rw [Tree.view_changeAt_id below_root, Tree.View.create, if_neg off_way]
  · rw [tree_applyDelta intact valid now context_keys below_root no_batch]

/-- The last accepted value that overlaps its path settles what stands there. -/
theorem view_applyDelta_of_lasting (intact : model.Intact layout) (valid : model.resolver.IsValid)
    (now : Instant) (below_root : (model.resolver.resolve delta.context).segments ≠ [])
    {position : Nat} {entry : Entry} (at_position : delta.entries[position]? = some entry)
    (accepted : entry.isAccepted delta)
    (lasts : ∀ later ∈ delta.entries.drop (position + 1), later.isAccepted delta →
      ¬ Path.Overlap (later.fullPath delta model.resolver).segments
        (entry.fullPath delta model.resolver).segments) :
    let moment := (model.applyDelta now (delta.cut position)).1
    let keys := (entry.fullPath delta model.resolver).segments
    (model.applyDelta now delta).1.tree.view keys =
      some (.leaf (entry.storedLeaf delta now (moment.tree.leafWithin? keys))) := by
  intro moment keys
  obtain ⟨arrival, arrives_eq, arrives, path_eq⟩ :=
    Entry.exists_arrival valid rfl below_root accepted
  change arrival.path = keys at path_eq
  have off_way : ¬ keys <+: (model.resolver.resolve delta.context).segments := by
    intro on_way
    have too_long := Nat.le_trans on_way.length_le arrives.branch.length_le
    rw [← path_eq, Arrival.path, List.length_append, List.length_singleton] at too_long
    omega
  have no_later : ∀ other ∈ (delta.entries.drop (position + 1)).filterMap (Entry.arrival? delta
      model.resolver (model.resolver.resolve delta.context).segments),
      other.reaches keys = false := by
    intro other member
    obtain ⟨-, later, later_mem, later_accepted, other_path⟩ :=
      exists_entry_of_mem valid rfl below_root member
    rw [Bool.eq_false_iff, ne_eq, Arrival.reaches_iff, other_path]
    exact lasts later later_mem later_accepted
  -- The arrivals before the value are those of the delta that is cut off before it.
  obtain ⟨in_bounds, is_entry⟩ := List.getElem?_eq_some_iff.1 at_position
  have split := List.take_append_drop position delta.entries
  rw [List.drop_eq_getElem_cons in_bounds, is_entry] at split
  have same_context : (model.resolver.resolve (delta.cut position).context).segments =
      (model.resolver.resolve delta.context).segments := rfl
  have same_arrivals : Entry.arrival? (delta.cut position) = Entry.arrival? delta := rfl
  have moment_view :=
    view_applyDelta_of_off_way intact valid now same_context below_root off_way
  obtain ⟨children, is_object⟩ := model.tree.changeAt_object below_root id
  rw [entries_cut, is_object, same_arrivals] at moment_view
  rw [view_applyDelta_of_off_way intact valid now rfl below_root off_way, ← split,
    List.filterMap_append, List.filterMap_cons_some arrives_eq, is_object,
    Tree.view_receiveAll_last now children _ no_later, Tree.View.receive, if_pos path_eq.symm,
    path_eq, ← moment_view, ← path_eq]
  exact congrArg (fun held => some (Tree.leaf held)) (arrives.leaf_eq now moment.tree)

/-- The last accepted value that overlaps its path is found there. -/
theorem exists_storedLeaf (intact : model.Intact layout) (valid : model.resolver.IsValid)
    (now : Instant) (deep : 2 ≤ (Path.ofText delta.context).segments.length) {position : Nat}
    {entry : Entry} (at_position : delta.entries[position]? = some entry)
    (accepted : entry.isAccepted delta)
    (lasts : ∀ later ∈ delta.entries.drop (position + 1), later.isAccepted delta →
      ¬ Path.Overlap (later.fullPath delta model.resolver).segments
        (entry.fullPath delta model.resolver).segments) :
    let after := (model.applyDelta now delta).1
    let moment := (model.applyDelta now (delta.cut position)).1
    let path := entry.fullPath delta model.resolver
    ∃ node, after.nodeAt? path.raw = some node ∧ after.leaf? node =
      some (entry.storedLeaf delta now (moment.tree.leafWithin? path.segments)) := by
  intro after moment path
  have below_root := below_root_of_deep model.resolver deep
  have after_view :=
    view_applyDelta_of_lasting intact valid now below_root at_position accepted lasts
  obtain ⟨after_layout, after_intact, same_resolver⟩ := intact_applyDelta intact now delta
  obtain ⟨node, node_eq, leaf_eq⟩ := after_intact.exists_leaf
    (Tree.walk?_of_within? (Tree.within?_of_view after_view))
  refine ⟨node, ?_, leaf_eq⟩
  rw [nodeAt?, same_resolver, Resolver.resolve_raw (Entry.isResolved_fullPath valid deep entry)]
  exact node_eq

/-- Where no accepted value overlaps, only the objects along the context are new. -/
theorem view_applyDelta_of_apart (intact : model.Intact layout) (valid : model.resolver.IsValid)
    (now : Instant) (context_keys : (model.resolver.resolve delta.context).segments = keys)
    (below_root : keys ≠ []) (some_batch : delta.batches ≠ []) {path : List String}
    (apart : ∀ entry ∈ delta.entries, entry.isAccepted delta →
      ¬ Path.Overlap (entry.fullPath delta model.resolver).segments path) :
    (model.applyDelta now delta).1.tree.view path =
      if path <+: keys then some .empty else model.tree.view path := by
  have not_reached : ∀ other ∈ delta.entries.filterMap (Entry.arrival? delta model.resolver keys),
      other.reaches path = false := by
    intro other member
    obtain ⟨-, entry, entry_mem, accepted, other_path⟩ :=
      exists_entry_of_mem valid context_keys below_root member
    rw [Bool.eq_false_iff, ne_eq, Arrival.reaches_iff, other_path]
    exact apart entry entry_mem accepted
  rw [tree_applyDelta intact valid now context_keys below_root some_batch,
    Tree.view_receiveAll_elsewhere not_reached, Tree.view_changeAt_id below_root]
  rfl

/-- A leaf below objects that no accepted value overlaps stays, unless the context makes an object
of it. -/
theorem mem_leafTrails_applyDelta_iff (intact : model.Intact layout)
    (valid : model.resolver.IsValid) (now : Instant)
    (context_keys : (model.resolver.resolve delta.context).segments = keys) (below_root : keys ≠ [])
    {trail : List String} {held : Leaf} (member : (trail, held) ∈ model.tree.leafTrails)
    (meets_none : model.tree.MeetsNoArray trail)
    (apart : ∀ entry ∈ delta.entries, entry.isAccepted delta →
      ¬ Path.Overlap (entry.fullPath delta model.resolver).segments trail) :
    (trail, held) ∈ (model.applyDelta now delta).1.tree.leafTrails ↔
      delta.batches = [] ∨ ¬ trail <+: keys := by
  obtain ⟨after_layout, after_intact, -⟩ := intact_applyDelta intact now delta
  have has : model.tree.HasLeaf trail held :=
    Tree.hasLeaf_of_mem_leafTrails (distinctKeys_treeOf intact _) meets_none member
  by_cases no_batch : delta.batches = []
  · have becomes := (receives_applyDelta intact now delta).1
    rw [no_batch] at becomes
    rw [becomes.tree_eq]
    exact ⟨fun _ => Or.inl no_batch, fun _ => member⟩
  · have after_view :=
      view_applyDelta_of_apart intact valid now context_keys below_root no_batch apart
    rw [or_iff_right no_batch, Tree.mem_leafTrails_iff]
    constructor
    · intro stands on_way
      rw [if_pos on_way] at after_view
      obtain ⟨branch, found, face_eq⟩ := Option.map_eq_some_iff.1 after_view
      have is_leaf := (Tree.standsAt_of_within? found).unique
        (distinctKeys_treeOf after_intact _) stands
      rw [is_leaf] at face_eq
      cases face_eq
    · intro off_way
      have before_view : model.tree.view trail = some (.leaf held) := congrArg (Option.map _) has
      rw [if_neg off_way, before_view] at after_view
      exact Tree.standsAt_of_within? (Tree.within?_of_view after_view)

end

/-- A delta whose context leads along two keys at least, applied to any model of a valid hub, counts
each value once, leaves behind the last accepted values of all that overlap, and keeps the leaves
that none overlaps. -/
theorem applyDelta_written {config : Config} (valid : config.validate = .ok ())
    (operations : List Operation) (now : Instant) {delta : Delta}
    (deep : 2 ≤ (Path.ofText delta.context).segments.length) :
    let model := run config.selfId operations
    delta.Written now model (model.applyDelta now delta) := by
  intro model
  have resolver_valid : model.resolver.IsValid :=
    (resolver_run config.selfId operations) ▸ config.isValid_resolver valid
  have below_root := below_root_of_deep model.resolver deep
  obtain ⟨layout, intact⟩ := run_intact config.selfId operations
  have report_eq := (receives_applyDelta intact now delta).2
  rw [sum_accepted, sum_rejected] at report_eq
  have applied : (model.applyDelta now delta).2.applied =
      delta.entries.countP (·.isAccepted delta) :=
    (congrArg MergeReport.applied report_eq).trans (Nat.zero_add _)
  have rejected : (model.applyDelta now delta).2.rejected =
      delta.entries.countP (!·.isAccepted delta) :=
    (congrArg MergeReport.rejected report_eq).trans (Nat.zero_add _)
  refine ⟨?_, applied, rejected, ?_, ?_⟩
  · rw [applied, rejected, List.length_eq_countP_add_countP (Entry.isAccepted delta)]
    simp only [Bool.not_eq_true, Bool.decide_eq_false]
  · intro position entry at_position accepted lasts
    exact exists_storedLeaf intact resolver_valid now deep at_position accepted lasts
  · intro trail held member meets_none apart
    rw [← batches_eq_nil_iff]
    exact mem_leafTrails_applyDelta_iff intact resolver_valid now rfl below_root member meets_none
      apart

/-- A course that is given twice, where a speed and a name are known already. -/
theorem courseTwice_written :
    (gullSettings.validate = .ok () ∧ 2 ≤ (Path.ofText courseTwice.context).segments.length) ∧
      let model := run gullSettings.selfId [.applyDelta ⟨7, 0⟩ speedAndName]
      courseTwice.Written ⟨8, 0⟩ model (model.applyDelta ⟨8, 0⟩ courseTwice) := by
  have valid : gullSettings.validate = .ok () := rfl
  have deep : 2 ≤ (Path.ofText courseTwice.context).segments.length := by decide +kernel
  exact ⟨⟨valid, deep⟩, applyDelta_written valid _ ⟨8, 0⟩ deep⟩

end Model

end VesselHub
