/-
Module: VesselHub.Proofs.Model.Commute
Purpose: Deltas whose values are written apart from each other can be applied in either order. What
  a value makes of the branches above it, the times that values without one repeat and the counts
  of a report depend on nothing that the other delta writes.
Main exports: Delta.targets, Delta.Independent, Model.applyDelta_comm
-/
import VesselHub.Proofs.Model.Alias
import VesselHub.Proofs.Model.Rebuild
import VesselHub.Proofs.Tree.View

namespace VesselHub

/-- The paths of the values of a batch that are accepted. -/
def Batch.acceptedPaths (batch : Batch) : List Path :=
  (batch.values.filter fun item => (batch.accept item).toOption.isSome).map fun item =>
    .ofText item.path

namespace Delta

/-- The keys from the root at which the accepted values of a delta are written. -/
def targets (resolver : Resolver) (delta : Delta) : List (List String) :=
  (delta.batches.flatMap Batch.acceptedPaths).map fun path =>
    (resolver.resolve delta.context).segments ++ path.segments

/-- No accepted value of one delta is written at the path of an accepted value of the other, above
it or below it, and neither context is at such a path of the other delta or below it. -/
structure Independent (resolver : Resolver) (one other : Delta) : Prop where
  apart : ∀ path ∈ one.targets resolver, ∀ twin ∈ other.targets resolver,
    ¬ path <+: twin ∧ ¬ twin <+: path
  one_outside : ∀ path ∈ other.targets resolver,
    ¬ path <+: (resolver.resolve one.context).segments
  other_outside : ∀ path ∈ one.targets resolver,
    ¬ path <+: (resolver.resolve other.context).segments

variable {resolver : Resolver} {delta : Delta}

theorem below_root_of_deep (resolver : Resolver)
    (deep : 2 ≤ (Path.ofText delta.context).segments.length) :
    (resolver.resolve delta.context).segments ≠ [] := by
  intro at_root
  have same_length := resolver.length_segments_resolve delta.context
  rw [at_root, List.length_nil] at same_length
  omega

/-- The values of a delta arrive below its context, at the paths that are its targets. -/
theorem arrives_at_target {keys : List String} (below_root : keys ≠ [])
    (context_keys : (resolver.resolve delta.context).segments = keys) {arrival : Arrival}
    (member : arrival ∈ (delta.batches.map (Batch.arrivals resolver keys)).flatten) :
    keys <+: arrival.branch ∧ arrival.path ∈ delta.targets resolver := by
  obtain ⟨_, is_batch, in_batch⟩ := List.mem_flatten.1 member
  obtain ⟨batch, batch_mem, rfl⟩ := List.mem_map.1 is_batch
  obtain ⟨accepted, accepted_mem, rfl⟩ := List.mem_map.1 in_batch
  obtain ⟨item, item_mem, accept_eq⟩ := Batch.mem_accepted.1 accepted_mem
  obtain ⟨last, branch_eq, -⟩ := Batch.of_accept accept_eq
  refine ⟨List.prefix_append _ _, List.mem_map.2 ⟨.ofText item.path, ?_, ?_⟩⟩
  · refine List.mem_flatMap.2 ⟨batch, batch_mem, List.mem_map.2 ⟨item, ?_, rfl⟩⟩
    exact List.mem_filter.2 ⟨item_mem, by rw [accept_eq]; rfl⟩
  · have branch_keys : resolver.pathBelow keys accepted.branch =
        .ofText (Path.ofText item.path).parent.raw := by
      rw [Resolver.pathBelow, if_neg below_root, branch_eq]
    rw [context_keys, ← Path.segments_parent last, ← branch_keys]
    exact (List.append_assoc ..).symm

end Delta

namespace Model

open Delta

/-- What a tree shows after a delta is what its values make of what it showed before. -/
theorem view_applyDelta {model : Model} {layout : Layout} (intact : model.Intact layout)
    (valid : model.resolver.IsValid) (now : Instant) {delta : Delta} {keys : List String}
    (context_keys : (model.resolver.resolve delta.context).segments = keys)
    (below_root : keys ≠ []) :
    (model.applyDelta now delta).1.tree.view = model.tree.view.receiveBatches now keys
      (delta.batches.map (Batch.arrivals model.resolver keys)) := by
  have resolved := Resolver.isResolved_resolve valid delta.context
  have becomes := (receives_applyDelta intact now delta).1
  rw [Resolver.resolve_raw resolved, context_keys] at becomes
  rw [becomes.tree_eq, Tree.view_receiveBatches below_root]
  exact fun arrival member => (arrives_at_target below_root context_keys member).1

/-- How many values are applied and rejected depends on the delta alone. -/
theorem report_applyDelta {model other : Model} {layout twin : Layout}
    (intact : model.Intact layout) (other_intact : other.Intact twin) (now : Instant)
    (delta : Delta) : (model.applyDelta now delta).2 = (other.applyDelta now delta).2 := by
  rw [(receives_applyDelta intact now delta).2, (receives_applyDelta other_intact now delta).2]

/-- Independent deltas below the root show the same in either order. -/
theorem view_applyDelta_comm {model : Model} {layout : Layout} (intact : model.Intact layout)
    (valid : model.resolver.IsValid) (now : Instant) {one other : Delta}
    (one_below : (model.resolver.resolve one.context).segments ≠ [])
    (other_below : (model.resolver.resolve other.context).segments ≠ [])
    (independent : Independent model.resolver one other) :
    ((model.applyDelta now one).1.applyDelta now other).1.tree.view =
      ((model.applyDelta now other).1.applyDelta now one).1.tree.view := by
  obtain ⟨one_layout, one_intact, one_resolver⟩ := intact_applyDelta intact now one
  obtain ⟨other_layout, other_intact, other_resolver⟩ := intact_applyDelta intact now other
  rw [view_applyDelta one_intact (one_resolver ▸ valid) now rfl (one_resolver ▸ other_below),
    view_applyDelta other_intact (other_resolver ▸ valid) now rfl (other_resolver ▸ one_below),
    view_applyDelta intact valid now rfl one_below,
    view_applyDelta intact valid now rfl other_below, one_resolver, other_resolver]
  refine Tree.View.receiveBatches_comm (fun first first_mem second second_mem => ?_)
    (fun first first_mem => ?_) fun second second_mem => ?_
  · exact Arrival.reaches_eq_false_iff.2 (independent.apart
      _ (arrives_at_target one_below rfl first_mem).2
      _ (arrives_at_target other_below rfl second_mem).2)
  · exact independent.other_outside _ (arrives_at_target one_below rfl first_mem).2
  · exact independent.one_outside _ (arrives_at_target other_below rfl second_mem).2

/-- Independent deltas that are applied at one time to any model of a valid hub leave the same
document up to the order of members, whichever comes first, and the same reports. -/
theorem applyDelta_comm {config : Config} (valid : config.validate = .ok ())
    (operations : List Operation) (now : Instant) {one other : Delta}
    (one_deep : 2 ≤ (Path.ofText one.context).segments.length)
    (other_deep : 2 ≤ (Path.ofText other.context).segments.length)
    (independent : Independent config.resolver one other) :
    let model := run config.selfId operations
    let oneFirst := model.applyDelta now one
    let otherFirst := model.applyDelta now other
    let otherSecond := oneFirst.1.applyDelta now other
    let oneSecond := otherFirst.1.applyDelta now one
    Json.Reordered otherSecond.1.document oneSecond.1.document ∧
      oneFirst.2 = oneSecond.2 ∧ otherFirst.2 = otherSecond.2 := by
  intro model oneFirst otherFirst otherSecond oneSecond
  have resolver_eq : model.resolver = config.resolver := resolver_run config.selfId operations
  have resolver_valid := resolver_eq ▸ config.isValid_resolver valid
  rw [← resolver_eq] at independent
  obtain ⟨layout, intact⟩ := run_intact config.selfId operations
  obtain ⟨one_layout, one_intact, -⟩ := intact_applyDelta intact now one
  obtain ⟨other_layout, other_intact, -⟩ := intact_applyDelta intact now other
  obtain ⟨last_layout, last_intact, -⟩ := intact_applyDelta one_intact now other
  obtain ⟨twin_layout, twin_intact, -⟩ := intact_applyDelta other_intact now one
  have same_view : otherSecond.1.tree.view = oneSecond.1.tree.view :=
    view_applyDelta_comm intact resolver_valid now (below_root_of_deep _ one_deep)
      (below_root_of_deep _ other_deep) independent
  exact ⟨Tree.reordered_of_view (distinctKeys_treeOf last_intact _)
      (distinctKeys_treeOf twin_intact _) same_view,
    report_applyDelta intact other_intact now one, report_applyDelta intact one_intact now other⟩

/-- The speed of the local vessel and its name, without times. -/
def speedAndName : Delta where
  context := "vessels.self"
  source := none
  values := [⟨"navigation.speed", .number (.int 3), none⟩, ⟨"name", .string "Gull", none⟩]
  updates := []

/-- The course of the local vessel, given twice, below its speed's branch. -/
def courseTwice : Delta where
  context := "vessels.gull.navigation"
  source := none
  values := [⟨"course", .number (.int 1), none⟩]
  updates := [{ sourceRef := some "compass", source := none, timestamp := none
                values := [⟨"course", .number (.int 2), none⟩] }]

/-- Speed, name and course can be applied in either order, though one delta makes the branch that
is the context of the other. -/
theorem speedAndName_courseTwice_comm :
    (gullSettings.validate = .ok () ∧
        2 ≤ (Path.ofText speedAndName.context).segments.length ∧
        2 ≤ (Path.ofText courseTwice.context).segments.length ∧
        Independent gullSettings.resolver speedAndName courseTwice) ∧
      let model := run "gull" []
      let speedFirst := model.applyDelta ⟨7, 0⟩ speedAndName
      let courseFirst := model.applyDelta ⟨7, 0⟩ courseTwice
      let courseSecond := speedFirst.1.applyDelta ⟨7, 0⟩ courseTwice
      let speedSecond := courseFirst.1.applyDelta ⟨7, 0⟩ speedAndName
      Json.Reordered courseSecond.1.document speedSecond.1.document ∧
        speedFirst.2 = speedSecond.2 ∧ courseFirst.2 = courseSecond.2 := by
  have valid : gullSettings.validate = .ok () := rfl
  have speed_deep : 2 ≤ (Path.ofText speedAndName.context).segments.length := by decide +kernel
  have course_deep : 2 ≤ (Path.ofText courseTwice.context).segments.length := by decide +kernel
  have independent : Independent gullSettings.resolver speedAndName courseTwice :=
    ⟨by decide +kernel, by decide +kernel, by decide +kernel⟩
  exact ⟨⟨valid, speed_deep, course_deep, independent⟩,
    applyDelta_comm valid [] ⟨7, 0⟩ speed_deep course_deep independent⟩

end Model

end VesselHub
