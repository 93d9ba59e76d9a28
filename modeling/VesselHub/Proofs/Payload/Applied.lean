/-
Module: VesselHub.Proofs.Payload.Applied
Purpose: Applying the deltas of a tracker to another model. Every value is accepted and written at
  the full path of its leaf, and no write disturbs another covered leaf.
Main exports: Tree.Replicable, Leaf.Copies, Tree.HasCopy, Payload.covered_place,
  Payload.accept_valueOf, Payload.applyDelta_copies
-/
import VesselHub.Proofs.Json.Same
import VesselHub.Proofs.Model.Apply
import VesselHub.Proofs.Path.Resolve
import VesselHub.Proofs.Payload.Tracker
import VesselHub.Proofs.Time.Instant
import VesselHub.Proofs.Tree.Within

namespace VesselHub

/-- A leaf holds the value, the source and the time of another, cut to milliseconds. -/
structure Leaf.Copies (held original : Leaf) : Prop where
  value : held.value.same original.value
  source : held.source = original.source
  timestamp : held.timestamp = original.timestamp.map Instant.toMillis

/-- A tree has a copy of a leaf at keys, below objects only. -/
def Tree.HasCopy (tree : Tree) (keys : List String) (original : Leaf) : Prop :=
  ∃ held, tree.HasLeaf keys held ∧ held.Copies original

/-- What a subscription covers in a tree can be sent in full. -/
structure Tree.Replicable (tree : Tree) (resolver : Resolver) (context : String)
    (filter : Pattern) : Prop where
  proper : tree.Proper
  no_alias : ∀ vessels, tree.child? vesselsKey = some vessels →
    selfKey ∉ Payload.childKeys vessels
  contexts : ∀ path ∈ Payload.contexts tree resolver context,
    ∀ held, tree.at? resolver path.raw ≠ some (.leaf held)
  source : ∀ covered ∈ Payload.covered tree resolver context filter, covered.leaf.source.isSome
  timestamp : ∀ covered ∈ Payload.covered tree resolver context filter,
    ∃ stamp, covered.leaf.timestamp = some stamp ∧ stamp.IsPlain
  no_array : ∀ covered ∈ Payload.covered tree resolver context filter,
    tree.MeetsNoArray covered.full.segments

namespace Tree

variable {tree : Tree} {keys path : List String} {original : Leaf}

/-- Writes that hit a path with copies only, and otherwise stay apart from it, leave a copy. -/
theorem hasCopy_writeAll {writes : List (List String × Leaf)}
    (each : ∀ write ∈ writes, (write.1 = path ∧ write.2.Copies original) ∨
      (¬ path <+: write.1 ∧ ¬ write.1 <+: path))
    (before : tree.HasCopy path original ∨ ∃ write ∈ writes, write.1 = path) :
    (tree.writeAll writes).HasCopy path original := by
  induction writes generalizing tree with
  | nil => exact before.resolve_right (by simp)
  | cons write writes induction_step =>
      rw [List.forall_mem_cons] at each
      apply induction_step each.2
      rcases each.1 with ⟨rfl, copies⟩ | ⟨not_below, not_above⟩
      · exact Or.inl ⟨write.2, within?_changeAt_self tree _ write.1, copies⟩
      · rcases before with ⟨held, has_leaf, copies⟩ | ⟨other, member, hits⟩
        · exact Or.inl ⟨held, has_leaf.changeAt_apart not_below not_above _, copies⟩
        · rcases List.mem_cons.1 member with rfl | later
          · exact absurd (hits ▸ List.prefix_rfl) not_above
          · exact Or.inr ⟨other, later, hits⟩

theorem hasCopy_writeBatches {batches : List (List (List String × Leaf))}
    (not_below : ¬ path <+: keys)
    (each : ∀ writes ∈ batches, ∀ write ∈ writes, (write.1 = path ∧ write.2.Copies original) ∨
      (¬ path <+: write.1 ∧ ¬ write.1 <+: path))
    (before : tree.HasCopy path original ∨ ∃ writes ∈ batches, ∃ write ∈ writes, write.1 = path) :
    (tree.writeBatches keys batches).HasCopy path original := by
  induction batches generalizing tree with
  | nil => exact before.resolve_right (by simp)
  | cons writes batches induction_step =>
      rw [List.forall_mem_cons] at each
      apply induction_step each.2
      rcases before with ⟨held, has_leaf, copies⟩ | ⟨others, member, hits⟩
      · have kept : (tree.changeAt keys id).HasCopy path original :=
          ⟨held, has_leaf.changeAt_id not_below, copies⟩
        exact Or.inl (hasCopy_writeAll each.1 (Or.inl kept))
      · rcases List.mem_cons.1 member with rfl | later
        · exact Or.inl (hasCopy_writeAll each.1 (Or.inr hits))
        · exact Or.inr ⟨others, later, hits⟩

end Tree

namespace Batch

private theorem length_acceptedAmong {batch : Batch} {items : List PathValue}
    (accepts : ∀ item ∈ items, ∃ accepted, batch.accept item = .ok accepted) :
    (batch.acceptedAmong items).length = items.length := by
  induction items with
  | nil => rfl
  | cons item items induction_step =>
      rw [List.forall_mem_cons] at accepts
      obtain ⟨⟨accepted, accept_eq⟩, later⟩ := accepts
      rw [acceptedAmong_cons_ok accept_eq, List.length_cons, List.length_cons,
        induction_step later]

end Batch

namespace Payload

variable {tree : Tree} {resolver : Resolver} {context : String} {filter : Pattern}

/-! ### Where covered leaves stand -/

private theorem isResolved_of_mem_contexts (valid : resolver.IsValid)
    (replicable : tree.Replicable resolver context filter) {path : Path}
    (member : path ∈ contexts tree resolver context) : path.IsResolved := by
  rcases mem_contexts member with ⟨_, rfl⟩ | ⟨_, vessels, key, found, key_mem, rfl⟩
  · exact Resolver.isResolved_resolve valid context
  · have at_key : tree.child? vesselsKey = some vessels := by
      have single : (resolver.resolve vesselsKey).segments = [vesselsKey] := by
        simp [Resolver.resolve, Resolver.resolvePath, Path.ofText, Path.segmentsOf_of_plain
          (by decide : Path.IsPlain vesselsKey)]
      rw [Tree.at?, single] at found
      obtain ⟨child, child_eq, here⟩ := Option.bind_eq_some_iff.1 found
      cases here
      exact child_eq
    have key_plain := plain_childKeys (Tree.EveryObject.child? replicable.proper.plain at_key)
      key key_mem
    have segments := vessel_segments key_plain
    have plain : ∀ part ∈ (Path.ofParts [vesselsKey, key]).segments, Path.IsPlain part := by
      rw [segments]
      simp only [List.forall_mem_cons, List.not_mem_nil, false_implies, implies_true, and_true]
      exact ⟨by decide, key_plain⟩
    refine ⟨plain, fun rest same => ?_, Path.segmentsOf_dotted_of_plain plain⟩
    · rw [segments] at same
      simp only [List.cons.injEq, true_and] at same
      exact replicable.no_alias vessels at_key (same.1 ▸ key_mem)

/-- A covered leaf stands behind the keys of its context, below objects only. -/
theorem covered_place (valid : resolver.IsValid)
    (replicable : tree.Replicable resolver context filter) {found : CoveredLeaf}
    (member : found ∈ covered tree resolver context filter) :
    ∃ trail, trail ≠ [] ∧ (∀ key ∈ trail, Path.IsPlain key) ∧
      found.relative = Path.dotted trail ∧
      found.full.segments = found.context.segments ++ trail ∧ found.context.IsResolved ∧
      tree.HasLeaf found.full.segments found.leaf := by
  obtain ⟨is_context, branch, trail, branch_eq, in_trails, relative_eq, _⟩ :=
    mem_covered.1 member
  have resolved := isResolved_of_mem_contexts valid replicable is_context
  have reached := branch_eq
  rw [Tree.at?, Resolver.resolve_raw resolved] at reached
  have trail_plain := Tree.plain_of_mem_leafTrails
    (Tree.EveryObject.walk? replicable.proper.plain reached) in_trails
  have segments : found.full.segments = found.context.segments ++ trail := by
    rw [full_segments trail_plain relative_eq, Path.flatMap_segmentsOf resolved.plain]
  have meets_none := replicable.no_array found member
  rw [segments] at meets_none
  have within := Tree.within?_of_walk? meets_none.of_prefix reached
  refine ⟨trail, ?_, trail_plain, relative_eq, segments, resolved, ?_⟩
  · rintro rfl
    rw [Tree.mem_leafTrails_nil.1 in_trails] at branch_eq
    exact replicable.contexts found.context is_context found.leaf branch_eq
  · rw [segments, Tree.HasLeaf, Tree.within?_append, within, Option.bind_some]
    exact Tree.hasLeaf_of_mem_leafTrails
      (Tree.EveryObject.walk? replicable.proper.distinct reached)
      (meets_none.below found.context.segments within) in_trails

/-- No covered leaf stands behind the alias of the local vessel. -/
theorem full_no_alias (valid : resolver.IsValid)
    (replicable : tree.Replicable resolver context filter) {found : CoveredLeaf}
    (member : found ∈ covered tree resolver context filter) (rest : List String) :
    found.full.segments ≠ vesselsKey :: selfKey :: rest := by
  intro is_alias
  obtain ⟨_, _, _, _, _, _, has_leaf⟩ := covered_place valid replicable member
  rw [is_alias] at has_leaf
  obtain ⟨vessels, vessels_eq, below⟩ := Option.bind_eq_some_iff.1 has_leaf
  obtain ⟨vessel, vessel_eq, _⟩ := Option.bind_eq_some_iff.1 below
  cases tree with
  | leaf held => cases vessels_eq
  | array items => cases vessels_eq
  | object children =>
      apply replicable.no_alias vessels vessels_eq
      cases vessels with
      | leaf held => cases vessel_eq
      | array items => cases vessel_eq
      | object kids => exact List.mem_map.2 ⟨_, Entries.mem_of_get? vessel_eq, rfl⟩

/-- The full path of a covered leaf is resolved. -/
theorem isResolved_full (valid : resolver.IsValid)
    (replicable : tree.Replicable resolver context filter) {found : CoveredLeaf}
    (member : found ∈ covered tree resolver context filter) : found.full.IsResolved where
  plain := plain_full_segments found
  no_alias := full_no_alias valid replicable member
  raw := Path.segmentsOf_dotted_of_plain (plain_full_segments found)

/-- Covered leaves with the same path are the same, and all others stand apart. -/
theorem same_or_apart (valid : resolver.IsValid)
    (replicable : tree.Replicable resolver context filter) {one other : CoveredLeaf}
    (has_one : one ∈ covered tree resolver context filter)
    (has_other : other ∈ covered tree resolver context filter) :
    (one.full.segments = other.full.segments ∧ one.leaf = other.leaf) ∨
      (¬ one.full.segments <+: other.full.segments ∧
        ¬ other.full.segments <+: one.full.segments) := by
  obtain ⟨_, _, _, _, _, _, one_leaf⟩ := covered_place valid replicable has_one
  obtain ⟨_, _, _, _, _, _, other_leaf⟩ := covered_place valid replicable has_other
  by_cases one_first : one.full.segments <+: other.full.segments
  · obtain ⟨rest, split⟩ := one_first
    rw [← split] at other_leaf
    obtain ⟨rfl, same⟩ := one_leaf.unique other_leaf
    exact Or.inl ⟨by rw [← split, List.append_nil], same.symm⟩
  · by_cases other_first : other.full.segments <+: one.full.segments
    · obtain ⟨rest, split⟩ := other_first
      rw [← split] at one_leaf
      obtain ⟨rfl, same⟩ := other_leaf.unique one_leaf
      exact Or.inl ⟨by rw [← split, List.append_nil], same⟩
    · exact Or.inr ⟨one_first, other_first⟩

/-! ### Writing copies -/

/-- The branch of a covered leaf is found below its context by its text. -/
private theorem pathBelow_branch (valid : resolver.IsValid)
    (replicable : tree.Replicable resolver context filter) {found : CoveredLeaf}
    (member : found ∈ covered tree resolver context filter) {branch : List String} {key : String}
    (plain : ∀ key ∈ branch, Path.IsPlain key)
    (segments : found.full.segments = found.context.segments ++ (branch ++ [key])) :
    (resolver.pathBelow found.context.segments (Path.dotted branch)).segments = branch := by
  have branch_segments := Path.segmentsOf_dotted_of_plain plain
  rw [Resolver.pathBelow]
  split
  · -- Below the root the text is resolved once more.
    rename_i at_root
    rw [Resolver.resolve, Resolver.resolvePath_of_no_alias]
    · exact branch_segments
    · intro rest is_alias
      have branch_eq : branch = vesselsKey :: selfKey :: rest := branch_segments.symm.trans is_alias
      apply full_no_alias valid replicable member (rest ++ [key])
      rw [segments, at_root, branch_eq]
      rfl
  · exact branch_segments

/-- The value that a tracker sends for a covered leaf is accepted, for the path of the leaf. -/
theorem accept_valueOf (valid : resolver.IsValid)
    (replicable : tree.Replicable resolver context filter) {found : CoveredLeaf}
    (member : found ∈ covered tree resolver context filter) {batch : Batch}
    (timed : batch.timestamp = found.leaf.timestampText) :
    ∃ accepted, batch.accept (Tracker.valueOf found) = .ok accepted ∧
      accepted.value = found.leaf.value ∧
      accepted.stamp = found.leaf.timestamp.map Instant.toMillis ∧
      found.context.segments ++ ((resolver.pathBelow found.context.segments
        accepted.branch).segments ++ [accepted.key]) = found.full.segments := by
  obtain ⟨trail, nonempty, trail_plain, relative_eq, segments, _, _⟩ :=
    covered_place valid replicable member
  obtain ⟨stamp, stamp_eq, stamp_plain⟩ := replicable.timestamp found member
  obtain ⟨branch, key, rfl⟩ : ∃ branch key, trail = branch ++ [key] :=
    ⟨_, _, (List.dropLast_append_getLast nonempty).symm⟩
  have branch_plain : ∀ key ∈ branch, Path.IsPlain key := fun key key_mem =>
    trail_plain key (List.mem_append_left _ key_mem)
  have path_segments : (Path.ofText found.relative).segments = branch ++ [key] := by
    rw [relative_eq]
    exact Path.segmentsOf_dotted_of_plain trail_plain
  have parent_raw : (Path.ofText found.relative).parent.raw = Path.dotted branch := by
    rw [Path.parent, path_segments, List.dropLast_concat, Path.ofParts,
      Path.flatMap_segmentsOf branch_plain]
  have time_eq : (Tracker.valueOf found).timestamp.or batch.timestamp = some stamp.text := by
    rw [timed, Leaf.timestampText, stamp_eq]
    rfl
  have accept_eq : batch.accept (Tracker.valueOf found) = .ok
      { branch := Path.dotted branch, key, value := found.leaf.value
        stamp := some stamp.toMillis } := by
    rw [Batch.accept]
    simp only [Path.last?, show (Tracker.valueOf found).path = found.relative from rfl,
      path_segments, List.getLast?_concat, time_eq, Instant.parse_text stamp_plain, parent_raw]
    rfl
  refine ⟨_, accept_eq, rfl, by rw [stamp_eq]; rfl, ?_⟩
  rw [segments, pathBelow_branch valid replicable member branch_plain segments]

/-- What is written for the value of a covered leaf is a copy at its path. -/
theorem copies_of_writes (valid : resolver.IsValid)
    (replicable : tree.Replicable resolver context filter) {found : CoveredLeaf}
    (member : found ∈ covered tree resolver context filter) {batch : Batch}
    (timed : batch.timestamp = found.leaf.timestampText)
    (named : found.leaf.source = some batch.source) {accepted : AcceptedValue}
    (accept_eq : batch.accept (Tracker.valueOf found) = .ok accepted)
    {write : List String × Leaf}
    (writes : Batch.Writes resolver found.context.segments batch.source accepted write) :
    write.1 = found.full.segments ∧ write.2.Copies found.leaf := by
  obtain ⟨other, other_eq, value_eq, stamp_eq, path_eq⟩ :=
    accept_valueOf valid replicable member timed
  rw [accept_eq] at other_eq
  cases other_eq
  obtain ⟨stamp, leaf_stamp, _⟩ := replicable.timestamp found member
  refine ⟨writes.path.trans path_eq, ?_, writes.source.trans named.symm, ?_⟩
  · rw [writes.value, value_eq]
    exact Json.same_refl (distinct_value replicable.proper member)
  · rw [leaf_stamp, Option.map_some] at stamp_eq ⊢
    exact writes.timestamp _ stamp_eq

/-! ### Deltas -/

/-- A batch carries the value of a leaf under its source and time. -/
structure Carries (batch : Batch) (found : CoveredLeaf) : Prop where
  value : Tracker.valueOf found ∈ batch.values
  timestamp : batch.timestamp = found.leaf.timestampText
  source : found.leaf.source = some batch.source

variable {leaves : List CoveredLeaf} {delta : Delta}

/-- The batches of a delta are its updates, each with its own source and time. -/
theorem mem_batches_deltasOf (member : delta ∈ Tracker.deltasOf leaves) {batch : Batch} :
    batch ∈ delta.batches ↔ ∃ update ∈ delta.updates, batch =
      { source := update.sourceRef.getD unknownSource, timestamp := update.timestamp
        values := update.values } := by
  obtain ⟨no_source, no_values, named⟩ := Tracker.shape_of_mem_deltasOf member
  rw [Delta.batches, Delta.flatBatch, no_values, List.isEmpty_nil, if_pos rfl, List.nil_append,
    List.mem_map]
  apply exists_congr
  intro update
  apply and_congr_right
  intro is_update
  rw [eq_comm, Delta.updateBatch, named update is_update, no_source]
  cases update.sourceRef <;> simp

/-- Every value of the deltas is that of a leaf. -/
theorem carries_of_mem (sourced : ∀ found ∈ leaves, found.leaf.source.isSome)
    (member : delta ∈ Tracker.deltasOf leaves) {batch : Batch} (is_batch : batch ∈ delta.batches)
    {item : PathValue} (is_value : item ∈ batch.values) :
    ∃ found ∈ leaves, found.context.text = delta.context ∧ item = Tracker.valueOf found ∧
      Carries batch found := by
  obtain ⟨update, is_update, rfl⟩ := (mem_batches_deltasOf member).1 is_batch
  obtain ⟨found, found_mem, same_context, same_source, same_time, rfl⟩ :=
    Tracker.sent_of_mem_deltasOf member is_update is_value
  refine ⟨found, found_mem, same_context, rfl, is_value, same_time.symm, ?_⟩
  obtain ⟨source, source_eq⟩ := Option.isSome_iff_exists.1 (sourced found found_mem)
  rw [source_eq] at same_source ⊢
  rw [← same_source]
  rfl

/-- Every leaf is carried by one of the deltas. -/
theorem exists_carries (sourced : ∀ found ∈ leaves, found.leaf.source.isSome)
    {found : CoveredLeaf} (member : found ∈ leaves) :
    ∃ delta ∈ Tracker.deltasOf leaves, delta.context = found.context.text ∧
      ∃ batch ∈ delta.batches, Carries batch found := by
  obtain ⟨delta, delta_mem, same_context, update, is_update, same_source, same_time, is_value⟩ :=
    Tracker.mem_deltasOf_of_mem member
  refine ⟨delta, delta_mem, same_context, _,
    (mem_batches_deltasOf delta_mem).2 ⟨update, is_update, rfl⟩, is_value, same_time, ?_⟩
  obtain ⟨source, source_eq⟩ := Option.isSome_iff_exists.1 (sourced found member)
  rw [same_source, source_eq]
  rfl

/-- The keys below which a delta is written are those of the context of its leaves. -/
theorem context_keys (valid : resolver.IsValid)
    (replicable : tree.Replicable resolver context filter) {found : CoveredLeaf}
    (member : found ∈ covered tree resolver context filter)
    (same_context : found.context.text = delta.context) :
    (resolver.resolve (resolver.resolve delta.context).raw).segments =
      found.context.segments := by
  obtain ⟨_, _, _, _, _, resolved, _⟩ := covered_place valid replicable member
  obtain ⟨segments, still⟩ := Resolver.resolve_text resolver resolved
  rw [← same_context, Resolver.resolve_raw still, segments]

/-- All values of a delta of covered leaves are accepted. -/
theorem all_accepted (valid : resolver.IsValid)
    (replicable : tree.Replicable resolver context filter)
    (among : ∀ found ∈ leaves, found ∈ covered tree resolver context filter)
    (member : delta ∈ Tracker.deltasOf leaves) {batch : Batch}
    (is_batch : batch ∈ delta.batches) : batch.accepted.length = batch.values.length := by
  apply Batch.length_acceptedAmong
  intro item is_value
  obtain ⟨found, found_mem, _, rfl, carries⟩ := carries_of_mem
    (fun found found_mem => replicable.source found (among found found_mem))
    member is_batch is_value
  obtain ⟨accepted, accept_eq, _⟩ :=
    accept_valueOf valid replicable (among found found_mem) carries.timestamp
  exact ⟨accepted, accept_eq⟩

/-- What is written for the batches of a delta. -/
abbrev WrittenFor (resolver : Resolver) (keys : List String) (delta : Delta)
    (written : List (List (List String × Leaf))) : Prop :=
  List.Forall₂ (fun batch => List.Forall₂ (Batch.Writes resolver keys batch.source) batch.accepted)
    delta.batches written

/-- Every write of a delta of covered leaves is a copy of one of them at its path. -/
theorem copy_of_mem_written (valid : resolver.IsValid)
    (replicable : tree.Replicable resolver context filter)
    (among : ∀ found ∈ leaves, found ∈ covered tree resolver context filter)
    (member : delta ∈ Tracker.deltasOf leaves) {written : List (List (List String × Leaf))}
    (written_for : WrittenFor resolver
      (resolver.resolve (resolver.resolve delta.context).raw).segments delta written)
    {writes : List (List String × Leaf)} (writes_mem : writes ∈ written)
    {write : List String × Leaf} (write_mem : write ∈ writes) :
    ∃ found ∈ leaves, write.1 = found.full.segments ∧ write.2.Copies found.leaf := by
  obtain ⟨batch, is_batch, for_batch⟩ := exists_left_of_forall₂ written_for writes_mem
  obtain ⟨accepted, accepted_mem, written_as⟩ := exists_left_of_forall₂ for_batch write_mem
  obtain ⟨item, is_value, accept_eq⟩ := Batch.mem_accepted.1 accepted_mem
  obtain ⟨found, found_mem, same_context, rfl, carries⟩ := carries_of_mem
    (fun found found_mem => replicable.source found (among found found_mem))
    member is_batch is_value
  have is_covered := among found found_mem
  rw [context_keys valid replicable is_covered same_context] at written_as
  exact ⟨found, found_mem, copies_of_writes valid replicable is_covered carries.timestamp
    carries.source accept_eq written_as⟩

/-- The path of a leaf that a delta carries is written. -/
theorem exists_mem_written (valid : resolver.IsValid)
    (replicable : tree.Replicable resolver context filter) {found : CoveredLeaf}
    (is_covered : found ∈ covered tree resolver context filter)
    (same_context : found.context.text = delta.context)
    {written : List (List (List String × Leaf))}
    (written_for : WrittenFor resolver
      (resolver.resolve (resolver.resolve delta.context).raw).segments delta written)
    {batch : Batch} (is_batch : batch ∈ delta.batches) (carries : Carries batch found) :
    ∃ writes ∈ written, ∃ write ∈ writes, write.1 = found.full.segments := by
  obtain ⟨writes, writes_mem, for_batch⟩ := exists_right_of_forall₂ written_for is_batch
  obtain ⟨accepted, accept_eq, _⟩ :=
    accept_valueOf valid replicable is_covered carries.timestamp
  obtain ⟨write, write_mem, written_as⟩ := exists_right_of_forall₂ for_batch
    (Batch.mem_accepted.2 ⟨_, carries.value, accept_eq⟩)
  rw [context_keys valid replicable is_covered same_context] at written_as
  exact ⟨writes, writes_mem, write, write_mem, (copies_of_writes valid replicable is_covered
    carries.timestamp carries.source accept_eq written_as).1⟩

/-- Covered leaves do not stand at the contexts or above them. -/
theorem full_not_prefix_context (valid : resolver.IsValid)
    (replicable : tree.Replicable resolver context filter) {one other : CoveredLeaf}
    (has_one : one ∈ covered tree resolver context filter)
    (has_other : other ∈ covered tree resolver context filter) :
    ¬ one.full.segments <+: other.context.segments := by
  intro starts
  obtain ⟨trail, nonempty, _, _, segments, _, _⟩ := covered_place valid replicable has_other
  have longer : one.full.segments <+: other.full.segments :=
    segments ▸ starts.trans (List.prefix_append _ _)
  rcases same_or_apart valid replicable has_one has_other with ⟨same, _⟩ | ⟨apart, _⟩
  · have shorter := starts.length_le
    rw [same, segments, List.length_append] at shorter
    have := List.length_pos_iff.2 nonempty
    omega
  · exact apart longer

/-- A delta of covered leaves is applied as a whole. It leaves copies of the leaves that it
carries, and keeps those of the others. -/
theorem applyDelta_copies (valid : resolver.IsValid)
    (replicable : tree.Replicable resolver context filter)
    (among : ∀ found ∈ leaves, found ∈ covered tree resolver context filter)
    (member : delta ∈ Tracker.deltasOf leaves) {model : Model} {layout : Layout}
    (intact : model.Intact layout) (resolver_eq : model.resolver = resolver) (now : Instant) :
    (∃ after, (model.applyDelta now delta).1.Intact after) ∧
      (model.applyDelta now delta).1.resolver = resolver ∧
      (model.applyDelta now delta).2.rejected = 0 ∧
      ∀ found ∈ covered tree resolver context filter,
        (model.tree.HasCopy found.full.segments found.leaf ∨
          found.context.text = delta.context ∧ ∃ batch ∈ delta.batches, Carries batch found) →
        (model.applyDelta now delta).1.tree.HasCopy found.full.segments found.leaf := by
  obtain ⟨written, written_for, becomes, report_eq⟩ := Model.applyDelta_spec intact now delta
  rw [resolver_eq] at written_for becomes
  refine ⟨becomes.intact, becomes.resolver.trans resolver_eq, ?_, ?_⟩
  · rw [report_eq]
    refine (Nat.zero_add _).trans
      (List.sum_eq_zero_iff_forall_eq_nat.2 fun count count_mem => ?_)
    obtain ⟨batch, is_batch, rfl⟩ := List.mem_map.1 count_mem
    rw [all_accepted valid replicable among member is_batch, Nat.sub_self]
  · intro found is_covered before
    rw [becomes.tree_eq]
    obtain ⟨some_leaf, some_mem, some_context⟩ := Tracker.context_of_mem_deltasOf member
    refine Tree.hasCopy_writeBatches ?_ (fun writes writes_mem write write_mem => ?_) ?_
    · rw [context_keys valid replicable (among some_leaf some_mem) some_context]
      exact full_not_prefix_context valid replicable is_covered (among some_leaf some_mem)
    · obtain ⟨other, other_mem, path_eq, copies⟩ :=
        copy_of_mem_written valid replicable among member written_for writes_mem write_mem
      rw [path_eq]
      rcases same_or_apart valid replicable is_covered (among other other_mem) with
        ⟨same_path, same_leaf⟩ | apart
      · exact Or.inl ⟨same_path.symm, same_leaf ▸ copies⟩
      · exact Or.inr apart
    · refine before.imp id fun ⟨same_context, batch, is_batch, carries⟩ => ?_
      exact exists_mem_written valid replicable is_covered same_context written_for is_batch
        carries

end Payload

end VesselHub
