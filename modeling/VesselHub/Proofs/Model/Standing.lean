/-
Module: VesselHub.Proofs.Model.Standing
Purpose: The keys that the nodes of a layout stand at. Each node stands at one list of keys, and
  looking up keys finds the node that stands there, but for positions written in other ways.
Main exports: Layout.StandsAt, Layout.StandsAt.unique, Layout.exists_standsAt_of_walk?,
  Layout.walk?_of_standsAt
-/
import VesselHub.Proofs.Model.Follow
import VesselHub.Proofs.Tree.Standing

namespace VesselHub.Layout

/-- A layout stands right below another under a key; items of arrays under their position. -/
def HasKid (layout : Layout) (key : String) (kid : Layout) : Prop :=
  match layout with
  | .leaf _ _ => False
  | .object _ children => (key, kid) ∈ children
  | .array _ items => ∃ position, items[position]? = some kid ∧ key = Path.positionKey position

/-- A layout stands at keys in another. -/
def StandsAt (layout : Layout) : List String → Layout → Prop
  | [], target => target = layout
  | key :: keys, target => ∃ kid, layout.HasKid key kid ∧ kid.StandsAt keys target

variable {layout target : Layout} {trail : List String}

theorem HasKid.mem_kids {key : String} {kid : Layout} (has_kid : layout.HasKid key kid) :
    kid ∈ layout.kids := by
  cases layout with
  | leaf id held => cases has_kid
  | object id children => exact List.mem_map_of_mem has_kid
  | array id items =>
      obtain ⟨position, item_eq, -⟩ := has_kid
      exact List.mem_of_getElem? item_eq

/-- A leaf stands in a leaf only if it is the same one. -/
theorem standsAt_leaf_iff {id node : NodeId} {held : Leaf} :
    (∃ other, (leaf id held).StandsAt trail (.leaf node other)) ↔ (trail, node) = ([], id) := by
  constructor
  · rintro ⟨_, stands⟩
    cases trail with
    | nil =>
        cases stands
        rfl
    | cons key trail =>
        obtain ⟨_, nothing, _⟩ := stands
        cases nothing
  · intro same
    cases same
    exact ⟨held, rfl⟩

theorem StandsAt.id_mem (stands : layout.StandsAt trail target) : target.id ∈ layout.ids := by
  induction trail generalizing layout with
  | nil =>
      cases stands
      exact target.id_mem_ids
  | cons key trail induction_step =>
      obtain ⟨kid, has_kid, below⟩ := stands
      exact ids_subset_of_mem_kids has_kid.mem_kids (induction_step below)

/-- The branches of the tree stand where the layouts do. -/
theorem StandsAt.tree (stands : layout.StandsAt trail target) :
    layout.tree.StandsAt trail target.tree := by
  induction trail generalizing layout with
  | nil => exact congrArg Layout.tree stands
  | cons key trail induction_step =>
      obtain ⟨kid, has_kid, below⟩ := stands
      refine ⟨kid.tree, ?_, induction_step below⟩
      cases layout with
      | leaf id held => cases has_kid
      | object id children =>
          rw [Layout.tree, childTrees_eq_map]
          exact List.mem_map.2 ⟨_, has_kid, rfl⟩
      | array id items =>
          obtain ⟨position, item_eq, key_eq⟩ := has_kid
          rw [Layout.tree, itemTrees_eq_map]
          exact ⟨position, by rw [List.getElem?_map, item_eq, Option.map_some], key_eq⟩

/-! ### One place for each node -/

/-- Among layouts without a common node, a node belongs to one position. -/
private theorem place_unique {layouts : List Layout} (distinct : (idsOf layouts).Nodup)
    {one other : Layout} {place more : Nat} (one_eq : layouts[place]? = some one)
    (other_eq : layouts[more]? = some other) {id : NodeId} (in_one : id ∈ one.ids)
    (in_other : id ∈ other.ids) : place = more := by
  induction layouts generalizing place more with
  | nil => cases one_eq
  | cons first layouts induction_step =>
      rw [idsOf_cons, List.nodup_append] at distinct
      obtain ⟨distinct_others, -, apart⟩ := distinct
      have not_shared {later : Layout} {index : Nat} (later_eq : layouts[index]? = some later)
          (in_later : id ∈ later.ids) (in_first : id ∈ first.ids) : False :=
        apart id (mem_idsOf.2 ⟨later, List.mem_of_getElem? later_eq, in_later⟩) id in_first rfl
      cases place with
      | zero =>
          cases one_eq
          cases more with
          | zero => rfl
          | succ more => exact (not_shared other_eq in_other in_one).elim
      | succ place =>
          cases more with
          | zero =>
              cases other_eq
              exact (not_shared one_eq in_one in_other).elim
          | succ more => rw [induction_step distinct_others one_eq other_eq]

private theorem HasKid.unique (distinct : layout.ids.Nodup) {key more : String} {one other : Layout}
    (has_one : layout.HasKid key one) (has_other : layout.HasKid more other) {id : NodeId}
    (in_one : id ∈ one.ids) (in_other : id ∈ other.ids) : key = more ∧ one = other := by
  rw [ids_eq, List.nodup_cons] at distinct
  cases layout with
  | leaf top held => cases has_one
  | object top children =>
      obtain ⟨place, place_eq⟩ := List.mem_iff_getElem?.1 has_one
      obtain ⟨other_place, other_eq⟩ := List.mem_iff_getElem?.1 has_other
      have kid_at {index : Nat} {entry : String × Layout}
          (entry_eq : children[index]? = some entry) :
          (object top children).kids[index]? = some entry.2 := by
        rw [kids, Entries.values, List.getElem?_map, entry_eq, Option.map_some]
      obtain rfl := place_unique distinct.2 (kid_at place_eq) (kid_at other_eq) in_one in_other
      cases Option.some.inj (place_eq.symm.trans other_eq)
      exact ⟨rfl, rfl⟩
  | array top items =>
      obtain ⟨position, one_eq, rfl⟩ := has_one
      obtain ⟨other_position, other_eq, rfl⟩ := has_other
      obtain rfl := place_unique distinct.2 one_eq other_eq in_one in_other
      exact ⟨rfl, Option.some.inj (one_eq.symm.trans other_eq)⟩

/-- A node stands at one list of keys. -/
theorem StandsAt.unique (distinct : layout.ids.Nodup) {more : List String} {other : Layout}
    (stands : layout.StandsAt trail target) (stands_other : layout.StandsAt more other)
    (same : target.id = other.id) : trail = more := by
  induction trail generalizing layout more with
  | nil =>
      cases more with
      | nil => rfl
      | cons key more =>
          -- The topmost node is not below itself.
          obtain ⟨kid, has_kid, below⟩ := stands_other
          cases stands
          exact absurd (same ▸ below.id_mem) (id_not_mem_of_mem_kids distinct has_kid.mem_kids)
  | cons key trail induction_step =>
      obtain ⟨kid, has_kid, below⟩ := stands
      cases more with
      | nil =>
          cases stands_other
          exact absurd (same ▸ below.id_mem) (id_not_mem_of_mem_kids distinct has_kid.mem_kids)
      | cons more_key more =>
          obtain ⟨other_kid, has_other, other_below⟩ := stands_other
          obtain ⟨rfl, rfl⟩ :=
            has_kid.unique distinct has_other below.id_mem (same ▸ other_below.id_mem)
          rw [induction_step (nodup_of_mem_kids distinct has_kid.mem_kids) below other_below]

/-! ### Looking keys up -/

/-- Two keys mean the same child: they are equal, or one is a position of an array. -/
def Means (key name : String) : Prop :=
  name = key ∨ ∃ position, name = Path.positionKey position

theorem exists_standsAt_of_walk? {keys : List String} (found : layout.walk? keys = some target) :
    ∃ names, layout.StandsAt names target ∧ List.Forall₂ Means keys names := by
  induction keys generalizing layout with
  | nil =>
      cases found
      exact ⟨[], rfl, .nil⟩
  | cons key keys induction_step =>
      obtain ⟨kid, kid_eq, rest⟩ := Option.bind_eq_some_iff.1 found
      obtain ⟨names, stands, alike⟩ := induction_step rest
      cases layout with
      | leaf id held => cases kid_eq
      | object id children =>
          exact ⟨key :: names, ⟨kid, Entries.mem_of_get? kid_eq, stands⟩, .cons (.inl rfl) alike⟩
      | array id items =>
          obtain ⟨position, -, item_eq⟩ := Option.bind_eq_some_iff.1 kid_eq
          exact ⟨Path.positionKey position :: names, ⟨kid, ⟨position, item_eq, rfl⟩, stands⟩,
            .cons (.inr ⟨position, rfl⟩) alike⟩

private theorem length_le_idsOf (layouts : List Layout) :
    layouts.length ≤ (idsOf layouts).length := by
  induction layouts with
  | nil => exact Nat.le_refl 0
  | cons layout layouts induction_step =>
      have own := List.length_pos_of_mem layout.id_mem_ids
      rw [idsOf_cons, List.length_append, List.length_cons]
      omega

/-- The keys that a layout stands at lead to it, if positions fit into 64 bits. -/
theorem walk?_of_standsAt {model : Model} {parent : Option NodeId}
    (holds : model.Holds parent layout) (fits : layout.ids.length ≤ Nat.pow 2 64)
    (stands : layout.StandsAt trail target) : layout.walk? trail = some target := by
  induction trail generalizing layout parent with
  | nil => exact congrArg some (Eq.symm stands)
  | cons key trail induction_step =>
      obtain ⟨kid, has_kid, below⟩ := stands
      have shorter := length_ids_lt_of_mem_kids has_kid.mem_kids
      have rest := induction_step (holds.kid_holds has_kid.mem_kids) (by omega) below
      have kid_eq : layout.child? key = some kid := by
        cases layout with
        | leaf id held => cases has_kid
        | object id children =>
            have distinct := holds.distinctKeys
            rw [content, Content.keys, Entries.keys_map_values] at distinct
            exact Entries.get?_of_mem distinct has_kid
        | array id items =>
            obtain ⟨position, item_eq, rfl⟩ := has_kid
            obtain ⟨within, -⟩ := List.getElem?_eq_some_iff.1 item_eq
            have few := length_le_idsOf items
            rw [ids_eq, kids, List.length_cons] at fits
            rw [child?, Path.position?_positionKey (by omega), Option.bind_some, item_eq]
      rw [walk?, kid_eq, Option.bind_some, rest]

end VesselHub.Layout
