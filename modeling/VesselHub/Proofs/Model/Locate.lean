/-
Module: VesselHub.Proofs.Model.Locate
Purpose: Paths of nodes and nodes at paths are inverse. Climbing needs no bound, as no chain of
  parents comes back, and what is climbed from a node leads down to it again, unless a key has dots
  or the alias is stored.
Main exports: Layout.StandsAt.target_unique, Layout.standsAt_of_walk?, Model.ClimbsTo,
  Model.ThroughObjects, Model.Intact.climbsTo_iff, Model.pathOf?_inverse
-/
import VesselHub.Proofs.Model.Address
import VesselHub.Proofs.Model.Climb

namespace VesselHub

/-! ### What stands at keys -/

namespace Layout

variable {layout target : Layout} {trail keys : List String}

private theorem HasKid.kid_unique (distinct : layout.content.keys.Nodup) {key : String}
    {one other : Layout}
    (has_one : layout.HasKid key one) (has_other : layout.HasKid key other) : one = other := by
  cases layout with
  | leaf id held => cases has_one
  | object id children =>
      rw [content, Content.keys, Entries.keys_map_values] at distinct
      have found := Entries.get?_of_mem distinct has_one
      rw [Entries.get?_of_mem distinct has_other, Option.some.injEq] at found
      exact found.symm
  | array id items =>
      obtain ⟨position, one_eq, rfl⟩ := has_one
      obtain ⟨other_position, other_eq, same⟩ := has_other
      rw [← Path.positionKey_injective same, one_eq, Option.some.injEq] at other_eq
      exact other_eq

/-- At a list of keys there stands one node. -/
theorem StandsAt.target_unique {model : Model} {parent : Option NodeId}
    (holds : model.Holds parent layout) {other : Layout} (stands : layout.StandsAt trail target)
    (stands_other : layout.StandsAt trail other) : target = other := by
  induction trail generalizing layout parent with
  | nil => exact stands.trans stands_other.symm
  | cons key trail induction_step =>
      obtain ⟨kid, has_kid, below⟩ := stands
      obtain ⟨other_kid, has_other, other_below⟩ := stands_other
      obtain rfl := has_kid.kid_unique holds.distinctKeys has_other
      exact induction_step (holds.kid_holds has_kid.mem_kids) below other_below

/-- Keys that lead through objects only are those that their node stands at. -/
theorem standsAt_of_walk? (found : layout.walk? keys = some target)
    (objects : ∀ position < keys.length, ∃ id children,
      layout.walk? (keys.take position) = some (.object id children)) :
    layout.StandsAt keys target := by
  induction keys generalizing layout with
  | nil => exact (Option.some.inj found).symm
  | cons key keys induction_step =>
      obtain ⟨id, children, is_object⟩ := objects 0 (Nat.zero_lt_succ _)
      obtain rfl := Option.some.inj is_object
      obtain ⟨kid, kid_eq, rest⟩ := Option.bind_eq_some_iff.1 found
      refine ⟨kid, Entries.mem_of_get? kid_eq, induction_step rest fun position within => ?_⟩
      obtain ⟨middle, others, led⟩ := objects (position + 1) (Nat.succ_lt_succ within)
      rw [List.take_succ_cons, walk?, kid_eq, Option.bind_some] at led
      exact ⟨middle, others, led⟩

end Layout

namespace Model

variable {model : Model} {layout : Layout}

/-! ### Climbing without a bound -/

/-- Climbing from a node ends with a path or with nothing. It goes on as long as there is a parent,
puts the key of each node in front of those `passed` before, and counts only if it ends at the
root. -/
inductive ClimbsTo (model : Model) : NodeId → List String → Option (List String) → Prop where
  | top {current : NodeId} {passed : List String} (no_parent : model.parent? current = none) :
      ClimbsTo model current passed (if current = model.root then some passed else none)
  | lost {current parent : NodeId} {passed : List String}
      (has_parent : model.parent? current = some parent)
      (unlisted : model.keyOf? parent current = none) : ClimbsTo model current passed none
  | up {current parent : NodeId} {passed : List String} {key : String}
      {result : Option (List String)} (has_parent : model.parent? current = some parent)
      (listed : model.keyOf? parent current = some key)
      (rest : ClimbsTo model parent (key :: passed) result) : ClimbsTo model current passed result

/-- Climbing has one result at most. -/
theorem ClimbsTo.unique {current : NodeId} {passed : List String}
    {one other : Option (List String)} (climbs : model.ClimbsTo current passed one)
    (climbs_other : model.ClimbsTo current passed other) : one = other := by
  induction climbs with
  | top no_parent =>
      cases climbs_other with
      | top => rfl
      | lost has_parent => cases no_parent.symm.trans has_parent
      | up has_parent => cases no_parent.symm.trans has_parent
  | lost has_parent unlisted =>
      cases climbs_other with
      | top no_parent => cases no_parent.symm.trans has_parent
      | lost => rfl
      | up other_parent listed =>
          cases has_parent.symm.trans other_parent
          cases unlisted.symm.trans listed
  | up has_parent listed _ induction_step =>
      cases climbs_other with
      | top no_parent => cases no_parent.symm.trans has_parent
      | lost other_parent unlisted =>
          cases has_parent.symm.trans other_parent
          cases unlisted.symm.trans listed
      | up other_parent other_listed rest =>
          cases has_parent.symm.trans other_parent
          cases listed.symm.trans other_listed
          exact induction_step rest

/-- A path that is climbed within a bound is climbed without one. -/
private theorem climbsTo_of_climb {height : Nat} {current : NodeId} {passed path : List String}
    (climbed : model.climb height current passed = some path) :
    model.ClimbsTo current passed (some path) := by
  induction height generalizing current passed with
  | zero => cases climbed
  | succ height induction_step =>
      rw [climb] at climbed
      split at climbed
      · cases climbed
      · rename_i node node_eq
        have parent_eq : model.parent? current = node.parent := by
          rw [parent?, node_eq, Option.bind_some]
        split at climbed
        · rename_i no_parent
          rw [← climbed]
          exact .top (parent_eq.trans no_parent)
        · rename_i parent has_parent
          obtain ⟨key, listed, rest⟩ := Option.bind_eq_some_iff.1 climbed
          exact .up (parent_eq.trans has_parent) listed (induction_step rest)

/-! ### There and back -/

/-- Whether a node is there and has named children. -/
def isObject (model : Model) (id : NodeId) : Bool :=
  match model.content? id with
  | some (.object _) => true
  | _ => false

/-- Every node on the way along keys from the root is an object, save the last. -/
def ThroughObjects (model : Model) (keys : List String) : Prop :=
  ∀ position < keys.length, (model.walk? model.root (keys.take position)).any model.isObject

instance (model : Model) (keys : List String) : Decidable (model.ThroughObjects keys) :=
  inferInstanceAs (Decidable (∀ _ < _, _))

namespace Intact

/-- Climbing ends from every node, with the path that is climbed within the bound. -/
theorem climbsTo_iff (intact : model.Intact layout) {id : NodeId} {result : Option (List String)} :
    model.ClimbsTo id [] result ↔ result = model.pathOf? id := by
  have climbs : model.ClimbsTo id [] (model.pathOf? id) := by
    by_cases live : model.contains id
    · obtain ⟨path, path_eq⟩ := Option.isSome_iff_exists.1 (intact.isSome_pathOf? live)
      rw [path_eq]
      exact climbsTo_of_climb path_eq
    · have gone : model.node? id = none := by
        rwa [contains, Bool.not_eq_true, Option.isSome_eq_false_iff, Option.isNone_iff_eq_none]
          at live
      have not_root : id ≠ model.root := fun same => live (same ▸ intact.wellFormed.rootLive)
      have top : model.ClimbsTo id [] (if id = model.root then some [] else none) :=
        .top (by rw [parent?, gone, Option.bind_none])
      rw [if_neg not_root] at top
      rwa [pathOf?_of_gone live]
  constructor
  · exact fun ends => ends.unique climbs
  · rintro rfl
    exact climbs

/-- The nodes that are gone are those without a path. -/
theorem pathOf?_eq_none_iff (intact : model.Intact layout) {id : NodeId} :
    model.pathOf? id = none ↔ ¬ model.contains id := by
  constructor
  · intro nothing live
    have some_path := intact.isSome_pathOf? live
    rw [nothing] at some_path
    cases some_path
  · exact pathOf?_of_gone

/-- No two nodes have the same path. -/
theorem pathOf?_injective (intact : model.Intact layout) {one other : NodeId}
    (live : model.contains one) (same : model.pathOf? one = model.pathOf? other) : one = other := by
  obtain ⟨trail, target, stands, rfl⟩ := intact.exists_standsAt_of_contains live
  rw [intact.pathOf?_of_standsAt stands] at same
  obtain ⟨also, stands_other, rfl⟩ := intact.pathOf?_eq_some_iff.1 same.symm
  rw [stands.target_unique intact.stores.holds stands_other]

/-- The path of a node leads to it, if its keys are an address. -/
theorem nodeAtParts?_of_standsAt (intact : model.Intact layout)
    (fits : model.slots.size ≤ Nat.pow 2 64) {trail : List String} {target : Layout}
    (stands : layout.StandsAt trail target) (address : Path.IsAddress trail) :
    model.nodeAtParts? trail = some target.id := by
  have few := intact.stores.holds.length_le_slots intact.stores.distinct
  have walked := Layout.walk?_of_standsAt intact.stores.holds (Nat.le_trans few fits) stands
  rw [nodeAtParts?, address.segments_resolveParts, ← intact.at_root, walk?_of_stores intact.stores,
    walked]
  rfl

private theorem content?_of_walk? (intact : model.Intact layout) {keys : List String}
    {target : Layout}
    (led : layout.walk? keys = some target) : model.content? target.id = some target.content := by
  obtain ⟨names, stands, -⟩ := Layout.exists_standsAt_of_walk? led
  obtain ⟨above, holds⟩ := intact.stores.holds.standsAt_holds stands
  exact holds.content?_eq

/-- A node that keys lead to through objects has these keys as its path. -/
theorem pathOf?_of_walk? (intact : model.Intact layout) {keys : List String} {id : NodeId}
    (found : model.walk? model.root keys = some id) (objects : model.ThroughObjects keys) :
    model.pathOf? id = some keys := by
  have in_layout (trail : List String) :
      model.walk? model.root trail = (layout.walk? trail).map Layout.id := by
    rw [← intact.at_root, walk?_of_stores intact.stores]
  rw [in_layout] at found
  obtain ⟨target, led, rfl⟩ := Option.map_eq_some_iff.1 found
  apply intact.pathOf?_of_standsAt
  apply Layout.standsAt_of_walk? led
  intro position within
  obtain ⟨node, walked, is_object⟩ := (Option.any_eq_true _ _).1 (objects position within)
  rw [in_layout] at walked
  obtain ⟨middle, middle_led, rfl⟩ := Option.map_eq_some_iff.1 walked
  rw [isObject, intact.content?_of_walk? middle_led] at is_object
  cases middle with
  | leaf => cases is_object
  | array => cases is_object
  | object top children => exact ⟨top, children, middle_led⟩

end Intact

/-- After any run, climbing ends from every node. It finds a path for the nodes that are there, no
two of which have the same. As long as positions fit into 64 bits, the path leads back to its node
if keys have no dots and no vessel is stored under the alias; and a node that is found through
objects has the path it is found by. -/
theorem pathOf?_inverse (name : String) (operations : List Operation) :
    let model := run name operations
    (∀ id result, model.ClimbsTo id [] result ↔ result = model.pathOf? id) ∧
      (∀ id, model.pathOf? id = none ↔ ¬ model.contains id) ∧
      (∀ one other, model.contains one → model.contains other → one ≠ other →
        model.pathOf? one ≠ model.pathOf? other) ∧
      (model.slots.size ≤ 2 ^ 64 → model.tree.KeysHave Path.IsPlain →
        model.walk? model.root aliasKeys = none →
          ∀ id, model.contains id → (model.pathOf? id).bind model.nodeAtParts? = some id) ∧
      ∀ text id, model.findNode? model.root text = some id →
        model.ThroughObjects (model.resolver.resolve text).segments →
          model.pathOf? id = some (model.resolver.resolve text).segments := by
  intro model
  obtain ⟨layout, intact⟩ : ∃ layout, model.Intact layout := run_intact name operations
  refine ⟨fun id result => intact.climbsTo_iff, fun id => intact.pathOf?_eq_none_iff,
    fun one other live _ differ same => differ (intact.pathOf?_injective live same), ?_, ?_⟩
  · intro fits plain no_alias id live
    obtain ⟨trail, target, stands, rfl⟩ := intact.exists_standsAt_of_contains live
    rw [intact.pathOf?_of_standsAt stands, Option.bind_some]
    exact intact.nodeAtParts?_of_standsAt fits stands
      (intact.isAddress_of_standsAt fits plain no_alias stands)
  · intro text id found objects
    rw [findNode?, pathBelow, if_pos rfl] at found
    exact intact.pathOf?_of_walk? found objects

/-- The speed is found through objects; a leg of a route stands in a list. Both paths lead back. -/
theorem plannedRoutes_inverse :
    let model := run "gull" (plannedRoutes.map fun message =>
      Operation.apply message.1 message.2)
    (model.slots.size ≤ 2 ^ 64 ∧ model.tree.KeysHave Path.IsPlain ∧
        model.walk? model.root aliasKeys = none) ∧
      (∃ speed, model.findNode? model.root "vessels.self.speed" = some speed ∧
        model.pathOf? speed = some ["vessels", "gull", "speed"]) ∧
      ∃ legs, model.pathOf? legs = some ["vessels", "gull", "routes", "1", "legs"] ∧
        model.nodeAtParts? ["vessels", "gull", "routes", "1", "legs"] = some legs := by
  -- The messages are kept apart from the run, or else stating its keys would carry it out.
  obtain ⟨messages, messages_eq, brings⟩ : ∃ messages, messages = plannedRoutes ∧
      ∀ message ∈ messages, MessageKeys Path.IsPlain message.2 := ⟨_, rfl, by decide +kernel⟩
  rw [← messages_eq]
  intro model
  have plain : model.tree.KeysHave Path.IsPlain :=
    keysHave_messages (fun _ => id) "gull" (by decide +kernel) messages brings
  obtain ⟨-, -, -, leads_back, found_there⟩ := pathOf?_inverse "gull"
    (messages.map fun message => Operation.apply message.1 message.2)
  have facts : (model.slots.size ≤ 2 ^ 64 ∧ model.walk? model.root aliasKeys = none) ∧
      ((model.resolver.resolve "vessels.self.speed").segments = ["vessels", "gull", "speed"] ∧
        model.findNode? model.root "vessels.self.speed" = some ⟨9, 0⟩ ∧
        model.ThroughObjects ["vessels", "gull", "speed"]) ∧
      model.contains ⟨6, 0⟩ ∧
        model.pathOf? ⟨6, 0⟩ = some ["vessels", "gull", "routes", "1", "legs"] := by
    subst messages_eq
    decide +kernel
  obtain ⟨⟨fits, no_alias⟩, ⟨keys, speed_found, objects⟩, live, legs_path⟩ := facts
  have speed_path := found_there "vessels.self.speed" _ speed_found (keys ▸ objects)
  rw [keys] at speed_path
  have back := leads_back fits plain no_alias _ live
  rw [legs_path, Option.bind_some] at back
  exact ⟨⟨fits, plain, no_alias⟩, ⟨_, speed_found, speed_path⟩, _, legs_path, back⟩

end Model

end VesselHub
