/-
Module: VesselHub.Proofs.Payload.Replica
Purpose: A model that is fed with the deltas of a tracker follows the models that the tracker sees:
  after every tick it has a copy of each covered leaf, whatever changed its shape or was deleted.
Main exports: Payload.Replica, Payload.Replica.run, Payload.Replica.tick_spec,
  Payload.Replica.run_copies
-/
import VesselHub.Proofs.Delta
import VesselHub.Proofs.Model.Run
import VesselHub.Proofs.Payload.Applied

namespace VesselHub

namespace Model

/-- Applies messages one after the other until one is rejected as a whole. -/
def applyEach (now : Instant) :
    List Json → Model → Except ApplyError (Model × List MergeReport)
  | [], model => .ok (model, [])
  | message :: messages, model => do
      let (applied, report) ← model.apply now message
      let (last, reports) ← applyEach now messages applied
      return (last, report :: reports)

/-- A delta that was written is applied as a delta. -/
theorem apply_encode (model : Model) (now : Instant) (delta : Delta) :
    model.apply now delta.encode = .ok (model.applyDelta now delta) := by
  have no_document : delta.encode.member? vesselsKey = none := by
    rw [Delta.encode, Json.objectOf, Json.member?, ← Json.present]
    simp [Delta.get?_present_list, vesselsKey]
  have has_context : delta.encode.member? "context" = some (.string delta.context) := by
    rw [Delta.encode, Json.objectOf, Json.member?, ← Json.present]
    simp
  rw [apply, no_document, has_context, Delta.decode_encode]
  rfl

end Model

namespace Payload

/-- A model as a tracker sees it, and the time at which its changes are received. -/
structure Snapshot where
  tree : Tree
  received : Instant

/-- A tracker, and the model that is fed with what it renders. -/
structure Replica where
  tracker : Tracker
  model : Model

namespace Replica

/-- A tracker that has seen nothing, and the model of a hub that has just been started. -/
def start (config : Config) : Replica where
  tracker := .fresh
  model := .ofSelf config.selfId

variable (resolver : Resolver) (context : String) (filter : Pattern)

/-- One tick: everything that the tracker renders is applied. -/
def tick (replica : Replica) (snapshot : Snapshot) :
    Except ApplyError (Replica × List MergeReport) := do
  let (deltas, tracker) := replica.tracker.render snapshot.tree resolver context filter
  let (model, reports) ← replica.model.applyEach snapshot.received (deltas.map Delta.encode)
  return ({ tracker, model }, reports)

/-- Tick after tick, and the reports on all that was applied. -/
def run : List Snapshot → Replica → Except ApplyError (Replica × List MergeReport)
  | [], replica => .ok (replica, [])
  | snapshot :: snapshots, replica => do
      let (ticked, reports) ← replica.tick resolver context filter snapshot
      let (last, more) ← run snapshots ticked
      return (last, reports ++ more)

variable {resolver context filter}

/-- What holds between ticks: the model has a copy of every leaf that the tracker remembers. -/
structure Follows (resolver : Resolver) (replica : Replica) : Prop where
  intact : ∃ layout, replica.model.Intact layout
  resolver : replica.model.resolver = resolver
  copies : ∀ (found : CoveredLeaf) (leaf : Leaf),
    Entries.get? replica.tracker.seen found.full.text = some leaf →
      replica.model.tree.HasCopy found.full.segments leaf

theorem follows_start (config : Config) : (start config).Follows config.resolver where
  intact := Model.intact_ofSelf config.selfId
  resolver := Model.resolver_ofSelf config.selfId
  copies _ _ seen := by cases seen

variable {tree : Tree} {leaves : List CoveredLeaf}

/-- Deltas of covered leaves are applied one after the other. They leave copies of the leaves that
they carry, and keep those of the others. -/
theorem applyEach_copies (valid : resolver.IsValid)
    (replicable : tree.Replicable resolver context filter)
    (among : ∀ found ∈ leaves, found ∈ covered tree resolver context filter) (now : Instant)
    {deltas : List Delta} (from_leaves : ∀ delta ∈ deltas, delta ∈ Tracker.deltasOf leaves)
    {model : Model} {layout : Layout} (intact : model.Intact layout)
    (resolver_eq : model.resolver = resolver) :
    ∃ after reports, model.applyEach now (deltas.map Delta.encode) = .ok (after, reports) ∧
      (∃ whole, after.Intact whole) ∧ after.resolver = resolver ∧
      (∀ report ∈ reports, report.rejected = 0) ∧
      ∀ found ∈ covered tree resolver context filter,
        (model.tree.HasCopy found.full.segments found.leaf ∨ ∃ delta ∈ deltas,
          found.context.text = delta.context ∧ ∃ batch ∈ delta.batches, Carries batch found) →
        after.tree.HasCopy found.full.segments found.leaf := by
  induction deltas generalizing model layout with
  | nil =>
      refine ⟨model, [], rfl, ⟨layout, intact⟩, resolver_eq, by simp, ?_⟩
      intro found _ before
      exact before.resolve_right (by simp)
  | cons delta deltas induction_step =>
      rw [List.forall_mem_cons] at from_leaves
      obtain ⟨⟨between, between_intact⟩, between_resolver, none_rejected, first_copies⟩ :=
        applyDelta_copies valid replicable among from_leaves.1 intact resolver_eq now
      obtain ⟨after, reports, applied, after_intact, after_resolver, no_others, copies⟩ :=
        induction_step from_leaves.2 between_intact between_resolver
      refine ⟨after, (model.applyDelta now delta).2 :: reports, ?_, after_intact, after_resolver,
        List.forall_mem_cons.2 ⟨none_rejected, no_others⟩, ?_⟩
      · rw [List.map_cons, Model.applyEach, Model.apply_encode]
        simp only [bind, Except.bind, applied]
        rfl
      · intro found is_covered before
        apply copies found is_covered
        rcases before with kept | ⟨carrier, carrier_mem, same_context, carried⟩
        · exact Or.inl (first_copies found is_covered (Or.inl kept))
        · rcases List.mem_cons.1 carrier_mem with rfl | later
          · exact Or.inl (first_copies found is_covered (Or.inr ⟨same_context, carried⟩))
          · exact Or.inr ⟨carrier, later, same_context, carried⟩

private theorem copies_of_same {held last leaf : Leaf} (copies : held.Copies last)
    (same : last.same leaf) : held.Copies leaf := by
  simp only [Leaf.same, Bool.and_eq_true, beq_iff_eq] at same
  obtain ⟨⟨same_value, same_source⟩, same_time⟩ := same
  exact ⟨Json.same_trans copies.value same_value, copies.source.trans same_source,
    same_time ▸ copies.timestamp⟩

/-- Before a tick the model has copies of the leaves that have not changed. -/
theorem Follows.unchanged {replica : Replica} (follows : replica.Follows resolver)
    {found : CoveredLeaf} (is_old : replica.tracker.isChanged found = false) :
    replica.model.tree.HasCopy found.full.segments found.leaf := by
  rw [Tracker.isChanged] at is_old
  split at is_old
  · rename_i last seen
    obtain ⟨held, has_leaf, copies⟩ := follows.copies found last seen
    exact ⟨held, has_leaf, copies_of_same copies (by simpa using is_old)⟩
  · cases is_old

/-- A tick applies everything, and then the model has a copy of every covered leaf. -/
theorem tick_spec (valid : resolver.IsValid) {snapshot : Snapshot}
    (replicable : snapshot.tree.Replicable resolver context filter) {replica : Replica}
    (follows : replica.Follows resolver) :
    ∃ after reports, replica.tick resolver context filter snapshot = .ok (after, reports) ∧
      after.Follows resolver ∧ (∀ report ∈ reports, report.rejected = 0) ∧
      ∀ found ∈ covered snapshot.tree resolver context filter,
        after.model.tree.HasCopy found.full.segments found.leaf := by
  obtain ⟨layout, intact⟩ := follows.intact
  have among : ∀ found ∈ replica.tracker.changes (covered snapshot.tree resolver context filter),
      found ∈ covered snapshot.tree resolver context filter :=
    fun found member => (List.mem_filter.1 member).1
  obtain ⟨model, reports, applied, after_intact, after_resolver, none_rejected, copies⟩ :=
    applyEach_copies valid replicable among snapshot.received
      (fun delta (member : delta ∈ Tracker.deltasOf _) => member) intact follows.resolver
  have all_copied : ∀ found ∈ covered snapshot.tree resolver context filter,
      model.tree.HasCopy found.full.segments found.leaf := by
    intro found member
    apply copies found member
    cases is_changed : replica.tracker.isChanged found with
    | false => exact Or.inl (follows.unchanged is_changed)
    | true =>
        obtain ⟨delta, delta_mem, same_context, carried⟩ := exists_carries
          (fun other other_mem => replicable.source other (among other other_mem))
          (List.mem_filter.2 ⟨member, is_changed⟩)
        exact Or.inr ⟨delta, delta_mem, same_context.symm, carried⟩
  refine ⟨⟨.remembering (covered snapshot.tree resolver context filter), model⟩, reports, ?_,
    ⟨after_intact, after_resolver, ?_⟩, none_rejected, all_copied⟩
  · rw [tick, Tracker.render]
    simp only [bind, Except.bind, applied]
    rfl
  · intro found leaf seen
    obtain ⟨other, other_mem, same_text, rfl⟩ := Tracker.exists_of_remembering seen
    rw [← full_segments_of_text same_text]
    exact all_copied other other_mem

theorem run_concat (snapshots : List Snapshot) (last : Snapshot) (replica : Replica) :
    run resolver context filter (snapshots ++ [last]) replica = do
      let (before, reports) ← run resolver context filter snapshots replica
      let (after, more) ← before.tick resolver context filter last
      return (after, reports ++ more) := by
  induction snapshots generalizing replica with
  | nil =>
      simp only [List.nil_append, run, bind, Except.bind, pure, Except.pure]
      cases replica.tick resolver context filter last with
      | error cause => rfl
      | ok ticked => exact congrArg Except.ok (Prod.ext rfl (List.append_nil _))
  | cons snapshot snapshots induction_step =>
      rw [List.cons_append, run, run]
      cases replica.tick resolver context filter snapshot with
      | error cause => rfl
      | ok ticked =>
          simp only [bind, Except.bind, induction_step]
          cases run resolver context filter snapshots ticked.1 with
          | error cause => rfl
          | ok before =>
              simp only [pure, Except.pure]
              cases before.1.tick resolver context filter last with
              | error cause => rfl
              | ok after =>
                  exact congrArg Except.ok (Prod.ext rfl (List.append_assoc _ _ _).symm)

/-- Every run applies everything and leaves a model that follows. -/
theorem run_follows (valid : resolver.IsValid) {snapshots : List Snapshot}
    (replicable : ∀ snapshot ∈ snapshots, snapshot.tree.Replicable resolver context filter)
    {replica : Replica} (follows : replica.Follows resolver) :
    ∃ after reports, run resolver context filter snapshots replica = .ok (after, reports) ∧
      after.Follows resolver ∧ ∀ report ∈ reports, report.rejected = 0 := by
  induction snapshots generalizing replica with
  | nil => exact ⟨replica, [], rfl, follows, by simp⟩
  | cons snapshot snapshots induction_step =>
      rw [List.forall_mem_cons] at replicable
      obtain ⟨between, reports, ticked, still, none_rejected, -⟩ :=
        tick_spec valid replicable.1 follows
      obtain ⟨after, more, ran, after_follows, no_others⟩ := induction_step replicable.2 still
      refine ⟨after, reports ++ more, ?_, after_follows, ?_⟩
      · rw [run, ticked]
        simp only [bind, Except.bind, ran]
        rfl
      · intro report member
        exact (List.mem_append.1 member).elim (none_rejected report) (no_others report)

/-- A replica of models that can be sent in full rejects nothing, and after every tick it holds at
the path of each covered leaf a leaf with the same value, source and time, cut to milliseconds. -/
theorem run_copies (config : Config) (valid : config.validate = .ok ()) (context : String)
    (filter : Pattern) (snapshots : List Snapshot) (last : Snapshot)
    (replicable : ∀ snapshot ∈ snapshots ++ [last],
      snapshot.tree.Replicable config.resolver context filter) :
    ∃ after reports,
      run config.resolver context filter (snapshots ++ [last]) (start config) =
        .ok (after, reports) ∧
      (∀ report ∈ reports, report.rejected = 0) ∧
      ∀ found ∈ covered last.tree config.resolver context filter,
        ∃ node held, after.model.nodeAt? found.full.text = some node ∧
          after.model.leaf? node = some held ∧ held.Copies found.leaf := by
  have resolver_valid := Config.isValid_resolver valid
  obtain ⟨before, reports, ran, follows, none_rejected⟩ := run_follows resolver_valid
    (fun snapshot member => replicable snapshot (List.mem_append_left _ member))
    (follows_start config)
  have last_replicable := replicable last (by simp)
  obtain ⟨after, more, ticked, after_follows, no_others, copies⟩ :=
    tick_spec resolver_valid last_replicable follows
  refine ⟨after, reports ++ more, ?_, ?_, ?_⟩
  · rw [run_concat, ran]
    simp only [bind, Except.bind, ticked]
    rfl
  · intro report member
    exact (List.mem_append.1 member).elim (none_rejected report) (no_others report)
  · intro found is_covered
    obtain ⟨held, has_leaf, is_copy⟩ := copies found is_covered
    obtain ⟨layout, intact⟩ := after_follows.intact
    obtain ⟨node, node_eq, leaf_eq⟩ := intact.exists_leaf (Tree.walk?_of_within? has_leaf)
    obtain ⟨segments, -⟩ := Resolver.resolve_text config.resolver
      (isResolved_full resolver_valid last_replicable is_covered)
    refine ⟨node, held, ?_, leaf_eq, is_copy⟩
    rw [Model.nodeAt?, after_follows.resolver, segments]
    exact node_eq

/-- The settings of a hub on the vessel `gull`. -/
def gullConfig : Config :=
  { Config.standard with selfId := "gull" }

/-- The speed of the vessel, measured at the start of 1970. -/
def gullSpeed (speed : Int) : Leaf where
  value := .number (.int speed)
  source := some "log"
  timestamp := some ⟨0, 123456789⟩

/-- The vessel with its speed. -/
def gullTree (speed : Int) : Tree :=
  .object [(vesselsKey, .object [("gull", .object [("speed", .leaf (gullSpeed speed))])])]

private theorem covered_gullTree (speed : Int) :
    covered (gullTree speed) gullConfig.resolver "vessels.self" ⟨"*", [.wildcard]⟩ =
      [{ context := ⟨"vessels.gull", ["vessels", "gull"]⟩, relative := "speed"
         leaf := gullSpeed speed }] := rfl

private theorem gullTree_proper (speed : Int) : (gullTree speed).Proper where
  distinct := by simp [gullTree, Tree.EveryObject, Tree.EveryChild, Entries.keys]
  plain := by
    simp only [gullTree, Tree.EveryObject, Tree.EveryChild, Entries.keys, and_true, List.map_cons,
      List.map_nil, List.forall_mem_singleton]
    decide
  values := by
    intro found member
    simp only [gullTree, Tree.leafTrails, Tree.childTrails, List.append_nil, List.map_cons,
      List.map_nil, List.mem_singleton] at member
    rw [member]
    trivial

private theorem gullTree_replicable (speed : Int) :
    (gullTree speed).Replicable gullConfig.resolver "vessels.self" ⟨"*", [.wildcard]⟩ where
  proper := gullTree_proper speed
  no_alias vessels found := by
    cases found
    exact show selfKey ∉ ["gull"] by decide
  contexts path member held := by
    cases List.mem_singleton.1 member
    nofun
  source found member := by
    rw [covered_gullTree, List.mem_singleton] at member
    rw [member]
    rfl
  timestamp found member := by
    rw [covered_gullTree, List.mem_singleton] at member
    rw [member]
    exact ⟨⟨0, 123456789⟩, rfl, Or.inl (by decide), by decide, by decide⟩
  no_array found member := by
    rw [covered_gullTree, List.mem_singleton] at member
    have segments : found.full.segments = ["vessels", "gull", "speed"] := by
      rw [member]
      show (Path.join ⟨"vessels.gull", ["vessels", "gull"]⟩ "speed").segments = _
      decide
    intro above starts items here
    simp only [segments, List.prefix_cons_iff, List.prefix_nil] at starts
    rcases starts with rfl | ⟨_, rfl, rfl | ⟨_, rfl, rfl | ⟨_, rfl, rfl⟩⟩⟩ <;> cases here

/-- A replica of two changes of the speed. -/
theorem gull_copies :
    ∃ after reports,
      run gullConfig.resolver "vessels.self" ⟨"*", [.wildcard]⟩
        ([⟨gullTree 1, ⟨5, 0⟩⟩] ++ [⟨gullTree 2, ⟨6, 0⟩⟩]) (start gullConfig) =
          .ok (after, reports) ∧
      (∀ report ∈ reports, report.rejected = 0) ∧
      ∀ found ∈ covered (gullTree 2) gullConfig.resolver "vessels.self" ⟨"*", [.wildcard]⟩,
        ∃ node held, after.model.nodeAt? found.full.text = some node ∧
          after.model.leaf? node = some held ∧ held.Copies found.leaf := by
  refine run_copies gullConfig rfl "vessels.self" ⟨"*", [.wildcard]⟩ [⟨gullTree 1, ⟨5, 0⟩⟩]
    ⟨gullTree 2, ⟨6, 0⟩⟩ fun snapshot member => ?_
  rw [List.singleton_append, List.mem_cons, List.mem_singleton] at member
  rcases member with rfl | rfl
  · exact gullTree_replicable 1
  · exact gullTree_replicable 2

end Replica

end Payload

end VesselHub
