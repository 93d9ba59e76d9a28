/-
Module: VesselHub.Proofs.Tree.Keys
Purpose: Trees every object of which has keys of a kind, and where the leaves of a tree stand.
Main exports: Tree.EveryObject, Tree.DistinctKeys, Tree.PlainKeys, Tree.HasKid,
  Tree.mem_leafTrails_cons, Tree.leaf_unique
-/
import VesselHub.Proofs.Path.Dotted
import VesselHub.Tree.Basic

namespace VesselHub

namespace Tree

mutual

/-- The keys of every object of the tree have a property. -/
def EveryObject (property : List String → Prop) : Tree → Prop
  | .leaf _ => True
  | .object children => property (Entries.keys children) ∧ EveryChild property children
  | .array items => EveryItem property items

def EveryChild (property : List String → Prop) : List (String × Tree) → Prop
  | [] => True
  | (_, child) :: children => child.EveryObject property ∧ EveryChild property children

def EveryItem (property : List String → Prop) : List Tree → Prop
  | [] => True
  | item :: items => item.EveryObject property ∧ EveryItem property items

end

variable {property : List String → Prop}

/-- No object of the tree has a key twice. -/
abbrev DistinctKeys (tree : Tree) : Prop :=
  tree.EveryObject List.Nodup

/-- Dotted paths can hold every key of the tree. -/
abbrev PlainKeys (tree : Tree) : Prop :=
  tree.EveryObject fun keys => ∀ key ∈ keys, Path.IsPlain key

theorem everyChild_iff (children : List (String × Tree)) :
    EveryChild property children ↔
      ∀ child ∈ Entries.values children, child.EveryObject property := by
  induction children with
  | nil => simp [EveryChild, Entries.values]
  | cons entry children induction_step =>
      simp [EveryChild, Entries.values, induction_step]

theorem everyItem_iff (items : List Tree) :
    EveryItem property items ↔ ∀ item ∈ items, item.EveryObject property := by
  induction items with
  | nil => simp [EveryItem]
  | cons item items induction_step => simp [EveryItem, induction_step]

private theorem keys_safeChildren_sublist (children : List (String × Tree)) :
    (Entries.keys (safeChildren children)).Sublist (Entries.keys children) := by
  induction children with
  | nil => exact .slnil
  | cons entry children induction_step =>
      obtain ⟨key, child⟩ := entry
      rw [safeChildren]
      split
      · exact induction_step.cons key
      · exact induction_step.cons_cons key

mutual

/-- A property that keys keep when some are left out is kept when private branches are. -/
theorem everyObject_safe (hereditary : ∀ {keys fewer : List String}, fewer.Sublist keys →
    property keys → property fewer) : ∀ {tree : Tree}, tree.EveryObject property →
      tree.safe.EveryObject property
  | .leaf _, _ => trivial
  | .object children, ⟨here, below⟩ =>
      ⟨hereditary (keys_safeChildren_sublist children) here, everyChild_safe hereditary below⟩
  | .array _, below => everyItem_safe hereditary below

theorem everyChild_safe (hereditary : ∀ {keys fewer : List String}, fewer.Sublist keys →
    property keys → property fewer) : ∀ {children : List (String × Tree)},
      EveryChild property children → EveryChild property (safeChildren children)
  | [], _ => trivial
  | (key, child) :: children, ⟨first, others⟩ => by
      rw [safeChildren]
      split
      · exact everyChild_safe hereditary others
      · exact ⟨everyObject_safe hereditary first, everyChild_safe hereditary others⟩

theorem everyItem_safe (hereditary : ∀ {keys fewer : List String}, fewer.Sublist keys →
    property keys → property fewer) : ∀ {items : List Tree},
      EveryItem property items → EveryItem property (safeItems items)
  | [], _ => trivial
  | _ :: _, ⟨first, others⟩ =>
      ⟨everyObject_safe hereditary first, everyItem_safe hereditary others⟩

end

theorem distinctKeys_safe {tree : Tree} (distinct : tree.DistinctKeys) :
    tree.safe.DistinctKeys :=
  everyObject_safe (fun fewer nodup => nodup.sublist fewer) distinct

/-! ### Documents -/

theorem encodeChildren_eq_map (children : List (String × Tree)) :
    encodeChildren children = children.map fun entry => (entry.1, entry.2.encode) := by
  induction children with
  | nil => rfl
  | cons entry children induction_step =>
      rw [encodeChildren, induction_step]
      rfl

theorem encodeItems_eq_map (items : List Tree) : encodeItems items = items.map encode := by
  induction items with
  | nil => rfl
  | cons item items induction_step => rw [encodeItems, induction_step, List.map_cons]

/-! ### Where leaves stand -/

/-- A branch stands right below another under a key; items of arrays under their position. -/
def HasKid (tree : Tree) (key : String) (kid : Tree) : Prop :=
  match tree with
  | .leaf _ => False
  | .object children => (key, kid) ∈ children
  | .array items => ∃ position, items[position]? = some kid ∧ key = Path.positionKey position

theorem EveryObject.kid {tree kid : Tree} {key : String} (every : tree.EveryObject property)
    (has_kid : tree.HasKid key kid) : kid.EveryObject property := by
  cases tree with
  | leaf held => cases has_kid
  | object children =>
      exact (everyChild_iff children).1 every.2 kid (List.mem_map.2 ⟨_, has_kid, rfl⟩)
  | array items =>
      obtain ⟨position, item_eq, _⟩ := has_kid
      exact (everyItem_iff items).1 every kid (List.mem_of_getElem? item_eq)

theorem EveryObject.child? {tree child : Tree} {key : String}
    (every : tree.EveryObject property) (found : tree.child? key = some child) :
    child.EveryObject property := by
  cases tree with
  | leaf held => cases found
  | object children =>
      exact (everyChild_iff children).1 every.2 child (Entries.mem_values_of_get? found)
  | array items =>
      obtain ⟨position, _, item_eq⟩ := Option.bind_eq_some_iff.1 found
      exact (everyItem_iff items).1 every child (List.mem_of_getElem? item_eq)

theorem EveryObject.walk? {tree branch : Tree} {keys : List String}
    (every : tree.EveryObject property) (found : tree.walk? keys = some branch) :
    branch.EveryObject property := by
  induction keys generalizing tree with
  | nil =>
      cases found
      exact every
  | cons key keys induction_step =>
      obtain ⟨child, child_eq, rest⟩ := Option.bind_eq_some_iff.1 found
      exact induction_step (EveryObject.child? every child_eq) rest

theorem HasKid.unique {tree one other : Tree} {key : String} (distinct : tree.DistinctKeys)
    (has_one : tree.HasKid key one) (has_other : tree.HasKid key other) : one = other := by
  cases tree with
  | leaf held => cases has_one
  | object children =>
      have found := Entries.get?_of_mem distinct.1 has_one
      rw [Entries.get?_of_mem distinct.1 has_other] at found
      exact (Option.some.inj found).symm
  | array items =>
      obtain ⟨position, one_eq, rfl⟩ := has_one
      obtain ⟨other_position, other_eq, same_key⟩ := has_other
      rw [← Path.positionKey_injective same_key, one_eq] at other_eq
      exact Option.some.inj other_eq

private theorem HasKid.plain {tree kid : Tree} {key : String} (plain : tree.PlainKeys)
    (has_kid : tree.HasKid key kid) : Path.IsPlain key := by
  cases tree with
  | leaf held => cases has_kid
  | object children => exact plain.1 key (List.mem_map.2 ⟨_, has_kid, rfl⟩)
  | array items =>
      obtain ⟨position, _, rfl⟩ := has_kid
      exact Path.plain_positionKey position

theorem mem_childTrails {children : List (String × Tree)} {trail : List String} {held : Leaf} :
    (trail, held) ∈ childTrails children ↔ ∃ key child rest, (key, child) ∈ children ∧
      trail = key :: rest ∧ (rest, held) ∈ child.leafTrails := by
  induction children with
  | nil => simp [childTrails]
  | cons entry children induction_step =>
      obtain ⟨first, first_child⟩ := entry
      rw [childTrails, List.mem_append, induction_step, List.mem_map]
      constructor
      · rintro (⟨⟨rest, found⟩, below, same⟩ | ⟨key, child, rest, member, trail_eq, below⟩)
        · cases same
          exact ⟨first, first_child, rest, List.mem_cons_self, rfl, below⟩
        · exact ⟨key, child, rest, List.mem_cons_of_mem _ member, trail_eq, below⟩
      · rintro ⟨key, child, rest, member, rfl, below⟩
        rcases List.mem_cons.1 member with here | later
        · cases here
          exact Or.inl ⟨_, below, rfl⟩
        · exact Or.inr ⟨key, child, rest, later, rfl, below⟩

theorem mem_itemTrails {items : List Tree} {start : Nat} {trail : List String} {held : Leaf} :
    (trail, held) ∈ itemTrails start items ↔ ∃ offset item rest, items[offset]? = some item ∧
      trail = Path.positionKey (start + offset) :: rest ∧ (rest, held) ∈ item.leafTrails := by
  induction items generalizing start with
  | nil => simp [itemTrails]
  | cons first items induction_step =>
      rw [itemTrails, List.mem_append, induction_step, List.mem_map]
      constructor
      · rintro (⟨⟨rest, found⟩, below, same⟩ | ⟨offset, item, rest, item_eq, trail_eq, below⟩)
        · cases same
          exact ⟨0, first, rest, rfl, rfl, below⟩
        · refine ⟨offset + 1, item, rest, item_eq, ?_, below⟩
          rw [trail_eq, Nat.add_assoc, Nat.add_comm 1]
      · rintro ⟨offset, item, rest, item_eq, rfl, below⟩
        cases offset with
        | zero =>
            cases item_eq
            exact Or.inl ⟨_, below, rfl⟩
        | succ offset =>
            refine Or.inr ⟨offset, item, rest, item_eq, ?_, below⟩
            rw [Nat.add_assoc, Nat.add_comm 1]

theorem mem_leafTrails_nil {tree : Tree} {held : Leaf} :
    ([], held) ∈ tree.leafTrails ↔ tree = .leaf held := by
  cases tree with
  | leaf other => simp [leafTrails, eq_comm]
  | object children => simp [leafTrails, mem_childTrails]
  | array items => simp [leafTrails, mem_itemTrails]

/-- A leaf below a key is a leaf of the branch under that key. -/
theorem mem_leafTrails_cons {tree : Tree} {key : String} {trail : List String} {held : Leaf} :
    (key :: trail, held) ∈ tree.leafTrails ↔
      ∃ kid, tree.HasKid key kid ∧ (trail, held) ∈ kid.leafTrails := by
  cases tree with
  | leaf other => simp [leafTrails, HasKid]
  | object children =>
      rw [leafTrails, mem_childTrails]
      constructor
      · rintro ⟨_, child, _, member, same, below⟩
        cases same
        exact ⟨child, member, below⟩
      · rintro ⟨kid, member, below⟩
        exact ⟨key, kid, trail, member, rfl, below⟩
  | array items =>
      rw [leafTrails, mem_itemTrails]
      constructor
      · rintro ⟨position, item, _, item_eq, same, below⟩
        cases same
        exact ⟨item, ⟨position, item_eq, by rw [Nat.zero_add]⟩, below⟩
      · rintro ⟨kid, ⟨position, item_eq, rfl⟩, below⟩
        exact ⟨position, kid, trail, item_eq, by rw [Nat.zero_add], below⟩

private theorem exists_hasKid {tree child : Tree} {key : String}
    (found : tree.child? key = some child) : ∃ name, tree.HasKid name child := by
  cases tree with
  | leaf held => cases found
  | object children => exact ⟨key, Entries.mem_of_get? found⟩
  | array items =>
      obtain ⟨position, _, item_eq⟩ := Option.bind_eq_some_iff.1 found
      exact ⟨_, position, item_eq, rfl⟩

/-- The leaves of a branch are leaves of the tree that it is found in. -/
theorem exists_leafTrails_of_walk? {tree branch : Tree} {keys trail : List String} {held : Leaf}
    (found : tree.walk? keys = some branch) (member : (trail, held) ∈ branch.leafTrails) :
    ∃ above, (above, held) ∈ tree.leafTrails := by
  induction keys generalizing tree with
  | nil =>
      cases found
      exact ⟨trail, member⟩
  | cons key keys induction_step =>
      obtain ⟨child, child_eq, rest⟩ := Option.bind_eq_some_iff.1 found
      obtain ⟨above, below⟩ := induction_step rest
      obtain ⟨name, has_kid⟩ := exists_hasKid child_eq
      exact ⟨name :: above, mem_leafTrails_cons.2 ⟨child, has_kid, below⟩⟩

/-- The keys that lead to a leaf determine it. -/
theorem leaf_unique {tree : Tree} (distinct : tree.DistinctKeys) {trail : List String}
    {one other : Leaf} (has_one : (trail, one) ∈ tree.leafTrails)
    (has_other : (trail, other) ∈ tree.leafTrails) : one = other := by
  induction trail generalizing tree with
  | nil =>
      rw [mem_leafTrails_nil] at has_one has_other
      rw [has_one, leaf.injEq] at has_other
      exact has_other
  | cons key trail induction_step =>
      obtain ⟨kid, has_kid, below⟩ := mem_leafTrails_cons.1 has_one
      obtain ⟨other_kid, has_other_kid, other_below⟩ := mem_leafTrails_cons.1 has_other
      rw [← HasKid.unique distinct has_kid has_other_kid] at other_below
      exact induction_step (EveryObject.kid distinct has_kid) below other_below

theorem plain_of_mem_leafTrails {tree : Tree} (plain : tree.PlainKeys) {trail : List String}
    {held : Leaf} (member : (trail, held) ∈ tree.leafTrails) :
    ∀ key ∈ trail, Path.IsPlain key := by
  induction trail generalizing tree with
  | nil => exact fun _ absurd_member => absurd absurd_member List.not_mem_nil
  | cons key trail induction_step =>
      obtain ⟨kid, has_kid, below⟩ := mem_leafTrails_cons.1 member
      intro other other_mem
      rcases List.mem_cons.1 other_mem with rfl | later
      · exact has_kid.plain plain
      · exact induction_step (EveryObject.kid plain has_kid) below other later

end Tree

end VesselHub
