/-
Module: VesselHub.Proofs.Model.Message
Purpose: What an inbound message makes of the tree, in one place: a document is merged, the values
  of a delta are written batch after batch, and a message that is refused changes nothing.
Main exports: Model.MessageTree, Model.becomes_messageTree, Model.becomes_messages
-/
import VesselHub.Proofs.Model.Run

namespace VesselHub.Model

/-- What a message makes of a tree. -/
inductive MessageTree (resolver : Resolver) (tree : Tree) (message : Json) : Tree → Prop where
  | document (has_vessels : (message.member? vesselsKey).isSome = true) :
      MessageTree resolver tree message (tree.merge resolver message)
  | delta {delta : Delta} {writes : List (List (List String × Leaf))}
      (decoded : Delta.decode message = .ok delta)
      (written : List.Forall₂ (fun batch => List.Forall₂ (Batch.Writes resolver
        (resolver.resolve (resolver.resolve delta.context).raw).segments batch.source)
          batch.accepted) delta.batches writes) :
      MessageTree resolver tree message (tree.writeBatches
        (resolver.resolve (resolver.resolve delta.context).raw).segments writes)
  | refused : MessageTree resolver tree message tree

theorem becomes_messageTree {model : Model} {layout : Layout} (intact : model.Intact layout)
    (now : Instant) (message : Json) :
    ∃ tree, Becomes model (model.perform (.apply now message)) tree ∧
      MessageTree model.resolver model.tree message tree := by
  rw [perform, apply]
  by_cases has_vessels : (message.member? vesselsKey).isSome = true
  · rw [if_pos has_vessels]
    exact ⟨_, becomes_merge intact message, .document has_vessels⟩
  · rw [if_neg has_vessels]
    by_cases no_context : (message.member? "context").isNone = true
    · rw [if_pos no_context]
      exact ⟨_, intact.becomes_refl, .refused⟩
    · rw [if_neg no_context]
      cases decoded : Delta.decode message with
      | error cause => exact ⟨_, intact.becomes_refl, .refused⟩
      | ok delta =>
          obtain ⟨writes, written, becomes, -⟩ := applyDelta_spec intact now delta
          exact ⟨_, becomes, .delta decoded written⟩

/-- What every message keeps, a run of messages keeps. -/
theorem becomes_messages {model : Model} {layout : Layout} (intact : model.Intact layout)
    (property : Tree → Prop) (messages : List (Instant × Json))
    (keeps : ∀ message ∈ messages, ∀ tree after, MessageTree model.resolver tree message.2 after →
      property tree → property after) (start : property model.tree) :
    ∃ tree, Becomes model ((messages.map fun message => Operation.apply message.1 message.2).foldl
      perform model) tree ∧ property tree := by
  induction messages generalizing model layout with
  | nil => exact ⟨model.tree, intact.becomes_refl, start⟩
  | cons message messages induction_step =>
      rw [List.forall_mem_cons] at keeps
      obtain ⟨between, first, made⟩ := becomes_messageTree intact message.1 message.2
      obtain ⟨next, next_intact⟩ := first.intact
      obtain ⟨tree, rest, last⟩ := induction_step next_intact (first.resolver ▸ keeps.2)
        (first.tree_eq ▸ keeps.1 model.tree between made start)
      exact ⟨tree, first.trans rest, last⟩

end VesselHub.Model
