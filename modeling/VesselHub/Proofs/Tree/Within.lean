/-
Module: VesselHub.Proofs.Tree.Within
Purpose: Leaves that stand below objects only. Such a leaf stays where it is until something is
  written at its path, above it or below it.
Main exports: Tree.within?, Tree.HasLeaf, Tree.HasLeaf.changeAt, Tree.HasLeaf.unique,
  Tree.hasLeaf_of_mem_leafTrails
-/
import VesselHub.Proofs.Tree.ChangeAt
import VesselHub.Proofs.Tree.Keys

namespace VesselHub.Tree

/-- The branch that keys lead to through objects only. -/
def within? (tree : Tree) : List String → Option Tree
  | [] => some tree
  | key :: keys => (Entries.get? tree.childrenOf key).bind fun child => within? child keys

/-- Keys lead through objects only to a leaf. -/
def HasLeaf (tree : Tree) (keys : List String) (held : Leaf) : Prop :=
  tree.within? keys = some (.leaf held)

/-- Keys meet no array on their way. -/
def MeetsNoArray (tree : Tree) (keys : List String) : Prop :=
  ∀ above, above <+: keys → ∀ items, tree.walk? above ≠ some (.array items)

theorem within?_append (tree : Tree) (keys more : List String) :
    tree.within? (keys ++ more) = (tree.within? keys).bind fun branch => branch.within? more := by
  induction keys generalizing tree with
  | nil => rfl
  | cons key keys induction_step =>
      rw [List.cons_append, within?, within?]
      cases Entries.get? tree.childrenOf key with
      | none => rfl
      | some child => exact induction_step child

theorem walk?_append (tree : Tree) (keys more : List String) :
    tree.walk? (keys ++ more) = (tree.walk? keys).bind fun branch => branch.walk? more := by
  induction keys generalizing tree with
  | nil => rfl
  | cons key keys induction_step =>
      rw [List.cons_append, walk?, walk?]
      cases tree.child? key with
      | none => rfl
      | some child => exact induction_step child

/-- What is found through objects is found. -/
theorem walk?_of_within? {tree branch : Tree} {keys : List String}
    (found : tree.within? keys = some branch) : tree.walk? keys = some branch := by
  induction keys generalizing tree with
  | nil => exact found
  | cons key keys induction_step =>
      cases tree with
      | object children =>
          obtain ⟨child, child_eq, rest⟩ := Option.bind_eq_some_iff.1 found
          rw [walk?, child?, show Entries.get? children key = some child from child_eq]
          exact induction_step rest
      | array items => cases found
      | leaf held => cases found

/-! ### Writing -/

theorem within?_setChild_self (tree child : Tree) (key : String) (keys : List String) :
    (tree.setChild key child).within? (key :: keys) = child.within? keys := by
  rw [within?, setChild, childrenOf, Entries.get?_insert_self, Option.bind_some]

theorem within?_setChild_of_ne {key other : String} (tree child : Tree) (differs : key ≠ other)
    (keys : List String) :
    (tree.setChild key child).within? (other :: keys) = tree.within? (other :: keys) := by
  rw [within?, setChild, childrenOf, Entries.get?_insert_of_ne _ _ differs, within?]

/-- Making an object of a branch keeps what is below it. -/
theorem within?_objectAt (tree : Tree) (key next : String) (keys : List String) :
    (tree.objectAt key).within? (next :: keys) = tree.within? (key :: next :: keys) := by
  rw [within?, objectAt, childrenOf, within?]
  cases Entries.get? tree.childrenOf key <;> rfl

/-- What is written at the end of keys is found there. -/
theorem within?_changeAt_self (tree after : Tree) (keys : List String) :
    (tree.changeAt keys fun _ => after).within? keys = some after := by
  induction keys generalizing tree with
  | nil => rfl
  | cons key keys induction_step =>
      rw [changeAt, within?_setChild_self]
      exact induction_step _

/-- What is found at a path stays if nothing is written above it or below it. -/
theorem within?_changeAt {tree : Tree} {keys path : List String} {change : Tree → Tree}
    (not_below : ¬ path <+: keys) (keeps : ∀ rest, path = keys ++ rest →
      ∀ branch : Tree, (change branch).within? rest = branch.within? rest) :
    (tree.changeAt keys change).within? path = tree.within? path := by
  induction keys generalizing tree path with
  | nil => exact keeps path rfl tree
  | cons key keys induction_step =>
      cases path with
      | nil => exact absurd List.nil_prefix not_below
      | cons first path =>
          rw [changeAt]
          by_cases same : key = first
          · subst same
            rw [within?_setChild_self]
            have rest_below : ¬ path <+: keys := fun starts =>
              not_below (List.cons_prefix_cons.2 ⟨rfl, starts⟩)
            rw [induction_step rest_below fun rest split => keeps rest (by rw [split]; rfl)]
            cases path with
            | nil => exact absurd List.nil_prefix rest_below
            | cons next path => exact within?_objectAt tree key next path
          · exact within?_setChild_of_ne tree _ same path

/-- There is something on the way to what was written. -/
theorem within?_changeAt_append (tree : Tree) (keys more : List String)
    (change : Tree → Tree) : ((tree.changeAt (keys ++ more) change).within? keys).isSome := by
  induction keys generalizing tree with
  | nil => rfl
  | cons key keys induction_step =>
      rw [List.cons_append, changeAt, within?_setChild_self]
      exact induction_step _

/-- On the way to what was written there are objects. -/
theorem within?_changeAt_above (tree : Tree) (keys : List String) {more : List String}
    (below : more ≠ []) (change : Tree → Tree) :
    ∃ children, (tree.changeAt (keys ++ more) change).within? keys = some (.object children) := by
  induction keys generalizing tree with
  | nil =>
      obtain ⟨children, is_object⟩ := tree.changeAt_object below change
      exact ⟨children, congrArg some is_object⟩
  | cons key keys induction_step =>
      rw [List.cons_append, changeAt, within?_setChild_self]
      exact induction_step _

/-- Below a leaf that was written there is nothing. -/
theorem within?_changeAt_below (tree : Tree) (keys : List String) {more : List String}
    (below : more ≠ []) (held : Leaf) :
    (tree.changeAt keys fun _ => .leaf held).within? (keys ++ more) = none := by
  rw [within?_append, within?_changeAt_self, Option.bind_some]
  cases more with
  | nil => exact absurd rfl below
  | cons key more => rfl

/-- Along keys that were created there are objects. -/
theorem within?_changeAt_id (tree : Tree) {keys path : List String} (below_root : keys ≠ [])
    (on_way : path <+: keys) :
    ∃ children, (tree.changeAt keys id).within? path = some (.object children) := by
  obtain ⟨more, split⟩ := on_way
  cases more with
  | nil =>
      obtain ⟨inner, is_object⟩ := tree.through_of_ne_nil below_root
      rw [List.append_nil] at split
      rw [split, changeAt_eq_const, within?_changeAt_self, is_object]
      exact ⟨inner, rfl⟩
  | cons key more =>
      rw [← split]
      exact within?_changeAt_above tree path (List.cons_ne_nil key more) id

/-- What a change below the last of some keys sees is what stands there. -/
theorem get?_through (tree : Tree) (keys : List String) (key : String) :
    Entries.get? (tree.through keys).childrenOf key = tree.within? (keys ++ [key]) := by
  induction keys generalizing tree with
  | nil =>
      rw [through, List.nil_append, within?]
      cases Entries.get? tree.childrenOf key <;> rfl
  | cons first keys induction_step =>
      rw [through, induction_step, List.cons_append]
      cases keys with
      | nil => exact within?_objectAt tree first key []
      | cons second keys => exact within?_objectAt tree first second _

namespace HasLeaf

variable {tree : Tree} {keys path : List String} {held : Leaf}

/-- A leaf stays if the change is not made below it and keeps it where it is made above it. -/
theorem changeAt {change : Tree → Tree} (has : tree.HasLeaf path held)
    (not_below : ¬ path <+: keys) (keeps : ∀ rest, path = keys ++ rest →
      ∀ branch : Tree, branch.HasLeaf rest held → (change branch).HasLeaf rest held) :
    (tree.changeAt keys change).HasLeaf path held := by
  induction keys generalizing tree path with
  | nil => exact keeps path rfl tree has
  | cons key keys induction_step =>
      cases path with
      | nil => exact absurd List.nil_prefix not_below
      | cons first path =>
          rw [HasLeaf, Tree.changeAt]
          by_cases same : key = first
          · subst same
            rw [within?_setChild_self]
            have rest_below : ¬ path <+: keys := fun starts =>
              not_below (List.cons_prefix_cons.2 ⟨rfl, starts⟩)
            refine induction_step ?_ rest_below fun rest split => keeps rest (by rw [split]; rfl)
            cases path with
            | nil => exact absurd List.nil_prefix rest_below
            | cons next path => exact (within?_objectAt tree key next path).trans has
          · exact (within?_setChild_of_ne tree _ same path).trans has

/-- A leaf stays if something is written elsewhere. -/
theorem changeAt_apart (has : tree.HasLeaf path held) (not_below : ¬ path <+: keys)
    (not_above : ¬ keys <+: path) (change : Tree → Tree) :
    (tree.changeAt keys change).HasLeaf path held :=
  has.changeAt not_below fun rest split => absurd ⟨rest, split.symm⟩ not_above

/-- A leaf stays if the objects along keys are made, unless they lead through it. -/
theorem changeAt_id (has : tree.HasLeaf path held) (not_below : ¬ path <+: keys) :
    (tree.changeAt keys id).HasLeaf path held :=
  has.changeAt not_below fun _ _ _ below => below

/-- Nothing is below a leaf. -/
theorem unique {other : Leaf} {rest : List String} (has : tree.HasLeaf path held)
    (has_other : tree.HasLeaf (path ++ rest) other) : rest = [] ∧ other = held := by
  rw [HasLeaf, within?_append, show tree.within? path = _ from has, Option.bind_some]
    at has_other
  cases rest with
  | nil => exact ⟨rfl, (Tree.leaf.inj (Option.some.inj has_other)).symm⟩
  | cons key rest => cases has_other

end HasLeaf

/-! ### Leaves without arrays above them -/

theorem MeetsNoArray.of_prefix {tree : Tree} {keys more : List String}
    (meets_none : tree.MeetsNoArray (keys ++ more)) : tree.MeetsNoArray keys :=
  fun above starts => meets_none above (starts.trans (List.prefix_append _ _))

theorem MeetsNoArray.below {tree branch : Tree} (keys : List String) {more : List String}
    (meets_none : tree.MeetsNoArray (keys ++ more)) (found : tree.within? keys = some branch) :
    branch.MeetsNoArray more := by
  intro above starts items here
  apply meets_none (keys ++ above) ((List.prefix_append_right_inj keys).2 starts) items
  rw [walk?_append, walk?_of_within? found]
  exact here

/-- What is found and meets no array is found through objects. -/
theorem within?_of_walk? {tree branch : Tree} {keys : List String}
    (meets_none : tree.MeetsNoArray keys) (found : tree.walk? keys = some branch) :
    tree.within? keys = some branch := by
  induction keys generalizing tree with
  | nil => exact found
  | cons key keys induction_step =>
      cases tree with
      | leaf held => cases found
      | array items => exact absurd rfl (meets_none [] List.nil_prefix items)
      | object children =>
          obtain ⟨child, child_eq, rest⟩ := Option.bind_eq_some_iff.1 found
          have here : (object children).within? [key] = some child := by
            rw [within?, childrenOf, show Entries.get? children key = some child from child_eq]
            rfl
          rw [within?, childrenOf, show Entries.get? children key = some child from child_eq]
          exact induction_step (MeetsNoArray.below [key] meets_none here) rest

/-- A leaf with no array above it stands below objects only. -/
theorem hasLeaf_of_mem_leafTrails {tree : Tree} (distinct : tree.DistinctKeys)
    {trail : List String} {held : Leaf} (meets_none : tree.MeetsNoArray trail)
    (member : (trail, held) ∈ tree.leafTrails) : tree.HasLeaf trail held := by
  induction trail generalizing tree with
  | nil =>
      rw [mem_leafTrails_nil] at member
      rw [member]
      rfl
  | cons key trail induction_step =>
      obtain ⟨kid, has_kid, below⟩ := mem_leafTrails_cons.1 member
      cases tree with
      | leaf held => cases has_kid
      | array items => exact absurd rfl (meets_none [] List.nil_prefix items)
      | object children =>
          have here : (object children).within? [key] = some kid := by
            rw [within?, childrenOf, Entries.get?_of_mem distinct.1 has_kid]
            rfl
          have rest := induction_step (EveryObject.kid distinct has_kid)
            (MeetsNoArray.below [key] meets_none here) below
          exact (within?_append (object children) [key] trail).trans (by rw [here]; exact rest)

end VesselHub.Tree
