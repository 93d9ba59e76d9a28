/-
Module: VesselHub.Proofs.Tree.Standing
Purpose: The branches of a tree and the keys that they stand at, as a relation. Other than looking
  a path up, it follows the stored keys whatever they are, and the positions of arrays.
Main exports: Tree.StandsAt, Tree.standsAt_append, Tree.mem_leafTrails_iff,
  Tree.everyObject_iff_standsAt, Tree.nodup_leafTrails
-/
import Mathlib.Data.List.Nodup
import VesselHub.Proofs.Tree.Keys

namespace VesselHub.Tree

/-- A branch of the tree stands at some keys: those of the objects on the way to it, and the
positions in the arrays. -/
def StandsAt (tree : Tree) : List String → Tree → Prop
  | [], branch => branch = tree
  | key :: keys, branch => ∃ kid, tree.HasKid key kid ∧ kid.StandsAt keys branch

variable {tree branch : Tree}

theorem standsAt_self (tree : Tree) : tree.StandsAt [] tree := rfl

theorem HasKid.standsAt {kid : Tree} {key : String} (has_kid : tree.HasKid key kid) :
    tree.StandsAt [key] kid :=
  ⟨kid, has_kid, rfl⟩

theorem standsAt_append {above below : List String} :
    tree.StandsAt (above ++ below) branch ↔
      ∃ middle, tree.StandsAt above middle ∧ middle.StandsAt below branch := by
  induction above generalizing tree with
  | nil =>
      constructor
      · exact fun stands => ⟨tree, rfl, stands⟩
      · rintro ⟨_, rfl, stands⟩
        exact stands
  | cons key above induction_step =>
      constructor
      · rintro ⟨kid, has_kid, stands⟩
        obtain ⟨middle, upper, lower⟩ := induction_step.1 stands
        exact ⟨middle, ⟨kid, has_kid, upper⟩, lower⟩
      · rintro ⟨middle, ⟨kid, has_kid, upper⟩, lower⟩
        exact ⟨kid, has_kid, induction_step.2 ⟨middle, upper, lower⟩⟩

/-- The leaves are listed with the keys that they stand at. -/
theorem mem_leafTrails_iff {trail : List String} {held : Leaf} :
    (trail, held) ∈ tree.leafTrails ↔ tree.StandsAt trail (.leaf held) := by
  induction trail generalizing tree with
  | nil => exact mem_leafTrails_nil.trans eq_comm
  | cons key trail induction_step =>
      rw [mem_leafTrails_cons]
      exact exists_congr fun kid => and_congr_right fun _ => induction_step

/-- At most one branch stands at some keys. -/
theorem StandsAt.unique {keys : List String} {one other : Tree} (distinct : tree.DistinctKeys)
    (has_one : tree.StandsAt keys one) (has_other : tree.StandsAt keys other) : one = other := by
  induction keys generalizing tree with
  | nil => exact Eq.trans has_one (Eq.symm has_other)
  | cons key keys induction_step =>
      obtain ⟨kid, has_kid, below⟩ := has_one
      obtain ⟨other_kid, has_other_kid, other_below⟩ := has_other
      rw [← HasKid.unique distinct has_kid has_other_kid] at other_below
      exact induction_step (EveryObject.kid distinct has_kid) below other_below

/-- Nothing stands below a leaf. -/
theorem trail_eq_of_start (distinct : tree.DistinctKeys) {trail more : List String}
    {one other : Leaf} (has_one : (trail, one) ∈ tree.leafTrails)
    (has_other : (more, other) ∈ tree.leafTrails) (starts : trail <+: more) : trail = more := by
  obtain ⟨rest, rfl⟩ := starts
  rw [mem_leafTrails_iff] at has_one has_other
  obtain ⟨middle, above, below⟩ := standsAt_append.1 has_other
  rw [above.unique distinct has_one] at below
  cases rest with
  | nil => exact (List.append_nil trail).symm
  | cons key rest =>
      obtain ⟨_, nothing, _⟩ := below
      cases nothing

/-! ### Keys of objects -/

variable {property : List String → Prop}

theorem EveryObject.standsAt {keys : List String} (every : tree.EveryObject property)
    (stands : tree.StandsAt keys branch) : branch.EveryObject property := by
  induction keys generalizing tree with
  | nil => exact Eq.subst (Eq.symm stands) every
  | cons key keys induction_step =>
      obtain ⟨kid, has_kid, below⟩ := stands
      exact induction_step (every.kid has_kid) below

mutual

theorem everyObject_of_standsAt : ∀ {tree : Tree}, (∀ keys children,
    tree.StandsAt keys (.object children) → property (Entries.keys children)) →
      tree.EveryObject property
  | .leaf _, _ => trivial
  | .object _, all => ⟨all [] _ rfl, everyChild_of_standsAt fun key child member keys children
      stands => all (key :: keys) children ⟨child, member, stands⟩⟩
  | .array _, all => everyItem_of_standsAt fun position item item_eq keys children stands =>
      all (Path.positionKey position :: keys) children ⟨item, ⟨position, item_eq, rfl⟩, stands⟩

theorem everyChild_of_standsAt : ∀ {children : List (String × Tree)},
    (∀ (key : String) (child : Tree), (key, child) ∈ children → ∀ keys inner,
      child.StandsAt keys (.object inner) → property (Entries.keys inner)) →
        EveryChild property children
  | [], _ => trivial
  | (key, child) :: _, all =>
      ⟨everyObject_of_standsAt (all key child List.mem_cons_self), everyChild_of_standsAt
        fun other inner member => all other inner (List.mem_cons_of_mem _ member)⟩

theorem everyItem_of_standsAt : ∀ {items : List Tree},
    (∀ (position : Nat) (item : Tree), items[position]? = some item → ∀ keys inner,
      item.StandsAt keys (.object inner) → property (Entries.keys inner)) →
        EveryItem property items
  | [], _ => trivial
  | item :: _, all => ⟨everyObject_of_standsAt (all 0 item rfl), everyItem_of_standsAt
      fun position other item_eq => all (position + 1) other item_eq⟩

end

/-- What every object has can be said branch by branch. -/
theorem everyObject_iff_standsAt : tree.EveryObject property ↔ ∀ keys children,
    tree.StandsAt keys (.object children) → property (Entries.keys children) :=
  ⟨fun every _ _ stands => (every.standsAt stands).1, everyObject_of_standsAt⟩

/-- What every key of every object has, the keys of a branch have, if positions have it too. -/
theorem forall_mem_of_standsAt {holds : String → Prop}
    (every : tree.EveryObject fun keys => ∀ key ∈ keys, holds key)
    (positions : ∀ position, holds (Path.positionKey position)) {keys : List String}
    (stands : tree.StandsAt keys branch) : ∀ key ∈ keys, holds key := by
  induction keys generalizing tree with
  | nil => exact fun _ member => absurd member List.not_mem_nil
  | cons key keys induction_step =>
      obtain ⟨kid, has_kid, below⟩ := stands
      rw [List.forall_mem_cons]
      refine ⟨?_, induction_step (every.kid has_kid) below⟩
      cases tree with
      | leaf held => cases has_kid
      | object children => exact every.1 key (List.mem_map.2 ⟨_, has_kid, rfl⟩)
      | array items =>
          obtain ⟨position, -, rfl⟩ := has_kid
          exact positions position

/-! ### Distinct trails -/

mutual

/-- The leaves of a tree stand at different keys. -/
theorem nodup_leafTrails : ∀ {tree : Tree}, tree.DistinctKeys →
    (tree.leafTrails.map Prod.fst).Nodup
  | .leaf _, _ => List.nodup_cons.2 ⟨List.not_mem_nil, List.nodup_nil⟩
  | .object _, ⟨here, below⟩ => nodup_childTrails here below
  | .array _, below => nodup_itemTrails 0 below

theorem nodup_childTrails : ∀ {children : List (String × Tree)}, (Entries.keys children).Nodup →
    EveryChild List.Nodup children → ((childTrails children).map Prod.fst).Nodup
  | [], _, _ => List.nodup_nil
  | (key, child) :: children, here, ⟨first, others⟩ => by
      rw [Entries.keys_cons, List.nodup_cons] at here
      rw [childTrails, List.map_append, List.nodup_append]
      refine ⟨?_, nodup_childTrails here.2 others, ?_⟩
      · have below :=
          List.Nodup.map (f := List.cons key) List.cons_injective (nodup_leafTrails first)
        rwa [List.map_map] at below ⊢
      · intro trail in_first other in_others same
        obtain ⟨_, found_mem, rfl⟩ := List.mem_map.1 in_first
        obtain ⟨_, _, rfl⟩ := List.mem_map.1 found_mem
        obtain ⟨⟨_, _⟩, other_mem, rfl⟩ := List.mem_map.1 in_others
        obtain ⟨later, kid, rest, kid_mem, trail_eq, _⟩ := mem_childTrails.1 other_mem
        rw [trail_eq, List.cons.injEq] at same
        exact here.1 (List.mem_map.2 ⟨_, kid_mem, same.1.symm⟩)

theorem nodup_itemTrails : ∀ {items : List Tree} (start : Nat), EveryItem List.Nodup items →
    ((itemTrails start items).map Prod.fst).Nodup
  | [], _, _ => List.nodup_nil
  | item :: items, start, ⟨first, others⟩ => by
      rw [itemTrails, List.map_append, List.nodup_append]
      refine ⟨?_, nodup_itemTrails (start + 1) others, ?_⟩
      · have below := List.Nodup.map (f := List.cons (Path.positionKey start)) List.cons_injective
          (nodup_leafTrails first)
        rwa [List.map_map] at below ⊢
      · intro trail in_first other in_others same
        obtain ⟨_, found_mem, rfl⟩ := List.mem_map.1 in_first
        obtain ⟨_, _, rfl⟩ := List.mem_map.1 found_mem
        obtain ⟨⟨_, _⟩, other_mem, rfl⟩ := List.mem_map.1 in_others
        obtain ⟨offset, kid, rest, _, trail_eq, _⟩ := mem_itemTrails.1 other_mem
        rw [trail_eq, List.cons.injEq] at same
        have same_position := Path.positionKey_injective same.1
        omega

end

end VesselHub.Tree
