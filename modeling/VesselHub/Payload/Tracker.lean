/-
Module: VesselHub.Payload.Tracker
Purpose: Remember what was sent last, so that each delta carries the changes only.
Main exports: Payload.Tracker, Payload.Tracker.render
-/
import VesselHub.Delta
import VesselHub.Payload.Covered

namespace VesselHub.Payload

/-- What a subscription saw last: the leaves by their full paths. -/
structure Tracker where
  seen : List (String × Leaf)

namespace Tracker

/-- A tracker that has seen nothing. -/
def fresh : Tracker := ⟨[]⟩

/-- Whether a leaf differs from what was seen at its path. -/
def isChanged (tracker : Tracker) (covered : CoveredLeaf) : Bool :=
  match Entries.get? tracker.seen covered.full.text with
  | some last => !last.same covered.leaf
  | none => true

/-- Remembers exactly these leaves. -/
def remembering (leaves : List CoveredLeaf) : Tracker :=
  ⟨leaves.foldl (fun seen covered => Entries.insert seen covered.full.text covered.leaf) []⟩

/-- The value that a leaf adds to an update. -/
def valueOf (covered : CoveredLeaf) : PathValue where
  path := covered.relative
  value := covered.leaf.value
  timestamp := none

/-- Adds a leaf to the update of its source and time, or to a new update behind the others. -/
def addToUpdates (covered : CoveredLeaf) : List Update → List Update
  | [] => [{
      sourceRef := covered.leaf.source
      source := none
      timestamp := covered.leaf.timestampText
      values := [valueOf covered] }]
  | update :: updates =>
      if update.sourceRef = covered.leaf.source ∧
          update.timestamp = covered.leaf.timestampText then
        { update with values := update.values ++ [valueOf covered] } :: updates
      else update :: addToUpdates covered updates

/-- Adds a leaf to the updates of its context, or to a new context behind the others. -/
def addToContexts (covered : CoveredLeaf) :
    List (Path × List Update) → List (Path × List Update)
  | [] => [(covered.context, addToUpdates covered [])]
  | (context, updates) :: contexts =>
      if context = covered.context then
        (context, addToUpdates covered updates) :: contexts
      else (context, updates) :: addToContexts covered contexts

/-- Changed leaves as deltas: one for each context, its values grouped by source and time. -/
def deltasOf (leaves : List CoveredLeaf) : List Delta :=
  let contexts := leaves.foldl (fun contexts covered => addToContexts covered contexts) []
  contexts.map fun entry =>
    { context := entry.1.text, source := none, values := [], updates := entry.2 }

/-- The leaves to send: those that differ from what was seen before. A leaf that is met twice is
compared both times. -/
def changes (tracker : Tracker) (leaves : List CoveredLeaf) : List CoveredLeaf :=
  leaves.filter tracker.isChanged

/-- The deltas with what changed since the last call, and what is remembered for the next. -/
def render (tracker : Tracker) (tree : Tree) (resolver : Resolver) (context : String)
    (filter : Pattern) : List Delta × Tracker :=
  let leaves := covered tree resolver context filter
  (deltasOf (tracker.changes leaves), remembering leaves)

end Tracker

end VesselHub.Payload
