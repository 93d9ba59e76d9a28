/-
Module: VesselHub.Proofs.Tree.Receive
Purpose: Values that arrive at a tree. A value without a time keeps that of the leaf it repeats;
  whether it repeats one is told from what stands at its path when it arrives.
Main exports: Arrival, Arrival.leaf, Tree.foundBy, Tree.receive, Tree.receiveAll,
  Tree.receiveBatches_eq
-/
import VesselHub.Proofs.Tree.ChangeAt

namespace VesselHub

/-- A value on its way to the leaf under a key of a branch, with its time if one is given. -/
structure Arrival where
  /-- The keys of the branch, from the root. -/
  branch : List String
  key : String
  value : Json
  source : String
  stamp : Option Instant

namespace Arrival

/-- The keys of the leaf. -/
def path (arrival : Arrival) : List String :=
  arrival.branch ++ [arrival.key]

theorem path_ne_nil (arrival : Arrival) : arrival.path ≠ [] :=
  List.append_ne_nil_of_right_ne_nil _ (List.cons_ne_nil _ _)

/-- What stands at a path changes if a value is written there, above it or below it. -/
def reaches (arrival : Arrival) (path : List String) : Bool :=
  arrival.path <+: path || path <+: arrival.path

theorem reaches_iff {arrival : Arrival} {path : List String} :
    arrival.reaches path = true ↔ arrival.path <+: path ∨ path <+: arrival.path := by
  rw [reaches, Bool.or_eq_true, decide_eq_true_eq, decide_eq_true_eq]

theorem reaches_eq_false_iff {arrival : Arrival} {path : List String} :
    arrival.reaches path = false ↔ ¬ arrival.path <+: path ∧ ¬ path <+: arrival.path := by
  rw [Bool.eq_false_iff, ne_eq, reaches_iff, not_or]

/-- Of two values, each reaches the path of the other or neither does. -/
theorem reaches_comm (one other : Arrival) : one.reaches other.path = other.reaches one.path :=
  Bool.or_comm ..

/-- The time of the leaf that is found, if it holds this value from this source. -/
def repeatedTime (arrival : Arrival) : Option Tree → Option Instant
  | some (.leaf held) =>
      if held.value.same arrival.value ∧ held.source = some arrival.source then held.timestamp
      else none
  | _ => none

/-- The time that is written: that of the value, or that of the leaf it repeats, or the time of
receipt. -/
def time (arrival : Arrival) (now : Instant) (found : Option Tree) : Instant :=
  (arrival.stamp.or (arrival.repeatedTime found)).getD now

/-- The leaf that is written. -/
def leaf (arrival : Arrival) (now : Instant) (found : Option Tree) : Leaf where
  value := arrival.value
  source := some arrival.source
  timestamp := some (arrival.time now found)

end Arrival

namespace Tree

/-- What stands where a value arrives. -/
def foundBy (tree : Tree) (arrival : Arrival) : Option Tree :=
  (tree.through arrival.branch).child? arrival.key

/-- Writes the leaf of a value. -/
def receive (now : Instant) (tree : Tree) (arrival : Arrival) : Tree :=
  tree.changeAt arrival.path fun _ => .leaf (arrival.leaf now (tree.foundBy arrival))

/-- Writes the leaves of values, one after the other. -/
def receiveAll (now : Instant) (tree : Tree) (arrivals : List Arrival) : Tree :=
  arrivals.foldl (receive now) tree

/-- Creates the object at the end of keys and writes the leaves of values, batch after batch. -/
def receiveBatches (now : Instant) (keys : List String) (tree : Tree)
    (batches : List (List Arrival)) : Tree :=
  batches.foldl (fun tree arrivals => (tree.changeAt keys id).receiveAll now arrivals) tree

variable {now : Instant} {keys : List String} {arrival : Arrival} {arrivals : List Arrival}

theorem receiveAll_append (tree : Tree) (arrivals more : List Arrival) :
    tree.receiveAll now (arrivals ++ more) =
      (tree.receiveAll now arrivals).receiveAll now more :=
  List.foldl_append

/-- A value finds the same whether the objects above it are made before or not. -/
private theorem foundBy_changeAt_id (below : keys <+: arrival.branch) (tree : Tree) :
    (tree.changeAt keys id).foundBy arrival = tree.foundBy arrival := by
  obtain ⟨rest, split⟩ := below
  rw [foundBy, foundBy, ← split, through_append, through_append, through_changeAt_id]

private theorem receive_changeAt_id (below : keys <+: arrival.branch) (tree : Tree) :
    (tree.changeAt keys id).receive now arrival = tree.receive now arrival := by
  rw [receive, receive, foundBy_changeAt_id below]
  obtain ⟨rest, split⟩ := below
  rw [Arrival.path, ← split, List.append_assoc, changeAt_append, changeAt_append,
    changeAt_changeAt_id]

/-- The objects above a value that was received are there. -/
theorem changeAt_id_receive (below : keys <+: arrival.branch) (tree : Tree) :
    (tree.receive now arrival).changeAt keys id = tree.receive now arrival := by
  obtain ⟨rest, split⟩ := below
  rw [receive, Arrival.path, ← split, List.append_assoc]
  exact changeAt_id_of_below tree keys
    (List.append_ne_nil_of_right_ne_nil _ (List.cons_ne_nil _ _)) _

private theorem changeAt_id_receiveAll {tree : Tree} (created : tree.changeAt keys id = tree)
    (below : ∀ arrival ∈ arrivals, keys <+: arrival.branch) :
    (tree.receiveAll now arrivals).changeAt keys id = tree.receiveAll now arrivals := by
  induction arrivals generalizing tree with
  | nil => exact created
  | cons arrival arrivals induction_step =>
      rw [List.forall_mem_cons] at below
      exact induction_step (changeAt_id_receive below.1 tree) below.2

/-- The object at the end of the keys is created once, and then all values are received. -/
theorem receiveBatches_eq {batches : List (List Arrival)} (nonempty : batches ≠ [])
    (below : ∀ arrival ∈ batches.flatten, keys <+: arrival.branch) (tree : Tree) :
    tree.receiveBatches now keys batches =
      (tree.changeAt keys id).receiveAll now batches.flatten := by
  have from_created : ∀ {batches : List (List Arrival)} {tree : Tree},
      tree.changeAt keys id = tree → (∀ arrival ∈ batches.flatten, keys <+: arrival.branch) →
        tree.receiveBatches now keys batches = tree.receiveAll now batches.flatten := by
    intro batches
    induction batches with
    | nil => exact fun _ _ => rfl
    | cons arrivals batches induction_step =>
        intro tree created below
        rw [List.flatten_cons, List.forall_mem_append] at below
        rw [List.flatten_cons, receiveAll_append,
          ← induction_step (changeAt_id_receiveAll created below.1) below.2]
        exact congrArg (fun tree =>
          receiveBatches now keys (receiveAll now tree arrivals) batches) created
  have created : (tree.changeAt keys id).changeAt keys id = tree.changeAt keys id :=
    changeAt_changeAt_id tree keys id
  rw [← from_created created below]
  cases batches with
  | nil => exact absurd rfl nonempty
  | cons arrivals batches =>
      exact (congrArg (fun tree =>
        receiveBatches now keys (receiveAll now tree arrivals) batches) created).symm

/-- If any value is received, it makes the objects itself. -/
theorem receiveBatches_of_ne_nil {batches : List (List Arrival)} (some_value : batches.flatten ≠ [])
    (below : ∀ arrival ∈ batches.flatten, keys <+: arrival.branch) (tree : Tree) :
    tree.receiveBatches now keys batches = tree.receiveAll now batches.flatten := by
  have nonempty : batches ≠ [] := by
    rintro rfl
    exact some_value rfl
  rw [receiveBatches_eq nonempty below]
  cases arrivals_eq : batches.flatten with
  | nil => exact absurd arrivals_eq some_value
  | cons arrival later =>
      rw [arrivals_eq, List.forall_mem_cons] at below
      rw [receiveAll, receiveAll, List.foldl_cons, List.foldl_cons, receive_changeAt_id below.1]

/-- Batches without values make the objects once. -/
theorem receiveBatches_twice_of_nil {batches : List (List Arrival)}
    (no_value : batches.flatten = []) (first second : Instant) (tree : Tree) :
    (tree.receiveBatches first keys batches).receiveBatches second keys batches =
      tree.receiveBatches first keys batches := by
  have none_below : ∀ arrival ∈ batches.flatten, keys <+: arrival.branch := by
    rw [no_value]
    exact nofun
  by_cases no_batch : batches = []
  · rw [no_batch]
    rfl
  · rw [receiveBatches_eq no_batch none_below, receiveBatches_eq no_batch none_below, no_value]
    exact changeAt_changeAt_id tree keys id

end Tree

end VesselHub
