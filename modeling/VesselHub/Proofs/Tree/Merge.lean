/-
Module: VesselHub.Proofs.Tree.Merge
Purpose: What merging a document under a key does to a tree: it sets the child under that key or
  does nothing, so the branches under other keys are not touched.
Main exports: Tree.writes, Tree.mergeChild_eq, Tree.get?_mergeChild_of_ne
-/
import VesselHub.Tree.Merge

namespace VesselHub.Tree

/-- Whether merging a document under a key writes there: all do but leaves with a bad time. -/
def writes : Json → Bool
  | .object members =>
      match Entries.contains members "value", Leaf.decode members with
      | true, .error _ => false
      | _, _ => true
  | _ => true

/-- Merging under a key sets the child under that key, or does nothing. -/
theorem mergeChild_eq (tree : Tree) (key : String) (document : Json) :
    ∃ child, tree.mergeChild key document =
      if writes document then tree.setChild key child else tree := by
  cases document with
  | object members =>
      rw [mergeChild]
      cases has_value : Entries.contains members "value" with
      | false => exact ⟨_, by simp [writes, has_value]; rfl⟩
      | true =>
          cases decoded : Leaf.decode members with
          | ok leaf => exact ⟨.leaf leaf, by simp [writes, has_value, decoded, putLeaf]⟩
          | error cause => exact ⟨tree, by simp [writes, has_value, decoded]⟩
  | null => exact ⟨_, rfl⟩
  | bool value => exact ⟨_, rfl⟩
  | number value => exact ⟨_, rfl⟩
  | string value => exact ⟨_, rfl⟩
  | array items => exact ⟨_, rfl⟩

theorem get?_mergeChild_of_ne {key other : String} (tree : Tree) (document : Json)
    (differs : key ≠ other) :
    Entries.get? (tree.mergeChild key document).childrenOf other =
      Entries.get? tree.childrenOf other := by
  obtain ⟨child, merged_eq⟩ := mergeChild_eq tree key document
  rw [merged_eq]
  split
  · exact Entries.get?_insert_of_ne tree.childrenOf child differs
  · rfl

end VesselHub.Tree
