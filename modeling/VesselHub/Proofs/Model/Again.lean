/-
Module: VesselHub.Proofs.Model.Again
Purpose: Messages that are applied twice. A document that is merged again changes nothing. A delta
  that is applied again changes no branch, but it gives a leaf another time if its value has none of
  its own and is not the first of the delta in its place.
Main exports: Model.remerge_keeps, Delta.arrivals, Delta.renews, Delta.renews_eq_false_of_apart,
  Model.reapply_keeps_iff
-/
import VesselHub.Proofs.Delta
import VesselHub.Proofs.Model.Rebuild
import VesselHub.Proofs.Model.WellFormed
import VesselHub.Proofs.Tree.Renewed

namespace VesselHub

namespace Model

/-- A document that is merged into a model that it was merged into leaves the document of the model
and the numbers of nodes and leaves as they are. -/
theorem remerge_keeps (id : String) (operations : List Operation) (document : Json) :
    let once := (run id operations).merge document
    let twice := once.merge document
    twice.document = once.document ∧ twice.nodeCount = once.nodeCount ∧
      twice.leafCount = once.leafCount := by
  intro once twice
  obtain ⟨layout, intact⟩ := run_intact id operations
  have first := becomes_merge intact document
  obtain ⟨between, once_intact⟩ := first.intact
  have second := becomes_merge once_intact document
  obtain ⟨after, twice_intact⟩ := second.intact
  have same_tree : twice.tree = once.tree := by
    rw [second.tree_eq, first.resolver, first.tree_eq]
    exact Tree.merge_twice (distinctKeys_treeOf intact _) document
  refine ⟨congrArg Tree.encode same_tree, ?_, ?_⟩
  · rw [twice_intact.nodeCount_eq_size, once_intact.nodeCount_eq_size, same_tree]
  · rw [twice_intact.leafCount_eq_length, once_intact.leafCount_eq_length, same_tree]

end Model

namespace Delta

/-- The accepted values of a delta as they arrive at the tree. -/
def arrivals (resolver : Resolver) (delta : Delta) : List Arrival :=
  let keys := (resolver.resolve (resolver.resolve delta.context).raw).segments
  delta.batches.flatMap (Batch.arrivals resolver keys)

/-- Whether applying the delta again gives some leaf the new time of receipt: its value has no time
of its own, it is the last of the delta that reaches the leaf, and what the delta wrote there before
was something else. -/
def renews (resolver : Resolver) (delta : Delta) : Bool :=
  Arrival.renewsAmong [] (delta.arrivals resolver)

variable {resolver : Resolver} {delta : Delta}

theorem mem_arrivals {arrival : Arrival} (member : arrival ∈ delta.arrivals resolver) :
    (resolver.resolve (resolver.resolve delta.context).raw).segments <+: arrival.branch ∧
      ∃ batch ∈ delta.batches, ∃ item ∈ batch.values, arrival.value = item.value := by
  obtain ⟨batch, batch_mem, in_batch⟩ := List.mem_flatMap.1 member
  obtain ⟨accepted, accepted_mem, rfl⟩ := List.mem_map.1 in_batch
  obtain ⟨item, item_mem, accept_eq⟩ := Batch.mem_accepted.1 accepted_mem
  exact ⟨List.prefix_append _ _, batch, batch_mem, item, item_mem,
    (Batch.of_accept accept_eq).value⟩

/-- A delta renews nothing if each of its values has a time of its own or is out of reach of those
before it. -/
theorem renews_eq_false_of_apart
    (apart : (delta.arrivals resolver).Pairwise fun earlier later =>
      later.stamp.isSome ∨ earlier.reaches later.path = false) :
    delta.renews resolver = false := by
  rw [renews, Bool.eq_false_iff]
  intro renews
  obtain ⟨before, arrival, later, split, is_renewed, -⟩ := Arrival.renewsAmong_iff.1 renews
  obtain ⟨no_stamp, other, member, reaches⟩ := Arrival.exists_reaches_of_renewed is_renewed
  rw [List.append_nil, List.mem_reverse] at member
  rw [split, List.pairwise_append] at apart
  rcases apart.2.2 other member arrival List.mem_cons_self with stamped | not_reached
  · rw [no_stamp] at stamped
    cases stamped
  · rw [not_reached] at reaches
    cases reaches

/-- The values that arrive were read from the message. -/
theorem distinct_arrivals {message : Json} (distinct : message.HasDistinctKeys)
    (decoded : Delta.decode message = .ok delta) :
    ∀ arrival ∈ delta.arrivals resolver, arrival.value.HasDistinctKeys := by
  obtain ⟨flat, updates⟩ := Delta.decode_distinct distinct decoded
  intro arrival member
  obtain ⟨-, batch, batch_mem, item, item_mem, value_eq⟩ := mem_arrivals member
  rw [value_eq]
  rcases List.mem_append.1 batch_mem with is_flat | is_update
  · rw [flatBatch] at is_flat
    split at is_flat
    · cases is_flat
    · rw [List.mem_singleton.1 is_flat] at item_mem
      exact flat item item_mem
  · obtain ⟨update, update_mem, rfl⟩ := List.mem_map.1 is_update
    exact updates update update_mem item item_mem

end Delta

namespace Model

/-- Applying a delta again at another time keeps the number of nodes. It keeps the document if and
only if the two times are written alike or the delta renews no leaf. -/
theorem reapply_keeps_iff (id : String) (operations : List Operation) {message : Json}
    {delta : Delta} (distinct : message.HasDistinctKeys)
    (decoded : Delta.decode message = .ok delta) (first second : Instant) :
    let model := run id operations
    let once := (model.applyDelta first delta).1
    let twice := (once.applyDelta second delta).1
    twice.nodeCount = once.nodeCount ∧
      (twice.document = once.document ↔
        first.text = second.text ∨ delta.renews model.resolver = false) := by
  intro model once twice
  obtain ⟨layout, intact⟩ := run_intact id operations
  have first_becomes := (receives_applyDelta intact first delta).1
  obtain ⟨between, once_intact⟩ := first_becomes.intact
  have second_becomes := (receives_applyDelta once_intact second delta).1
  obtain ⟨after, twice_intact⟩ := second_becomes.intact
  have twice_distinct : twice.tree.DistinctKeys := distinctKeys_treeOf twice_intact _
  have once_eq : once.tree = _ := first_becomes.tree_eq
  have twice_eq : twice.tree = _ := second_becomes.tree_eq
  rw [first_becomes.resolver, once_eq] at twice_eq
  rw [twice_eq] at twice_distinct
  rw [document, document, twice_intact.nodeCount_eq_size, once_intact.nodeCount_eq_size,
    twice_eq, once_eq]
  exact Tree.receiveBatches_twice (distinctKeys_treeOf intact model.root)
    (fun arrival member => (Delta.mem_arrivals member).1)
    (Delta.distinct_arrivals distinct decoded) first second twice_distinct

/-- Two depths below the keel of the local vessel in one message, without times. -/
def soundings (first second : Int) : Delta where
  context := "vessels.self"
  source := none
  values := [
    ⟨"environment.depth", .number (.int first), none⟩,
    ⟨"environment.depth", .number (.int second), none⟩]
  updates := []

theorem soundings_distinct (first second : Int) :
    (soundings first second).encode.HasDistinctKeys := by
  simp [soundings, Delta.encode, Delta.listMember, PathValue.encode, Json.objectOf,
    Json.optionalMember, Json.HasDistinctKeys, Json.ItemsHaveDistinctKeys,
    Json.MembersHaveDistinctKeys, Entries.keys]

/-- Equal depths keep their time. -/
theorem equal_soundings_kept :
    ((soundings 4 4).encode.HasDistinctKeys ∧
        Delta.decode (soundings 4 4).encode = .ok (soundings 4 4)) ∧
      let once := ((run "gull" []).applyDelta ⟨7, 0⟩ (soundings 4 4)).1
      let twice := (once.applyDelta ⟨8, 0⟩ (soundings 4 4)).1
      twice.nodeCount = once.nodeCount ∧ twice.document = once.document := by
  have distinct := soundings_distinct 4 4
  have decoded := Delta.decode_encode (soundings 4 4)
  have unrenewed : (soundings 4 4).renews (run "gull" []).resolver = false := by decide +kernel
  obtain ⟨same_count, same_iff⟩ := reapply_keeps_iff "gull" [] distinct decoded ⟨7, 0⟩ ⟨8, 0⟩
  exact ⟨⟨distinct, decoded⟩, same_count, same_iff.2 (Or.inr unrenewed)⟩

/-- Different depths get the new time of receipt whenever they are applied. -/
theorem different_soundings_renewed :
    ¬ ∀ (id : String) (operations : List Operation) (message : Json) (delta : Delta)
      (first second : Instant), message.HasDistinctKeys → Delta.decode message = .ok delta →
        first.seconds < second.seconds →
          let once := ((run id operations).applyDelta first delta).1
          let twice := (once.applyDelta second delta).1
          twice.document = once.document ∧ twice.nodeCount = once.nodeCount := by
  intro always
  have same := (always "gull" [] _ (soundings 4 5) ⟨7, 0⟩ ⟨8, 0⟩ (soundings_distinct 4 5)
    (Delta.decode_encode _) (by decide)).1
  have same_text := congrArg Json.compact same
  revert same_text
  decide +kernel

end Model

end VesselHub
