/-
Module: VesselHub.Proofs.Model.Address
Purpose: When the path that a leaf is reported under leads back to it. Paths are cut at their dots
  and their alias is resolved, so it comes down to the keys that the leaf stands at.
Main exports: Model.leafNodes, Path.IsAddress, Model.Addressable, Model.addressable_iff
-/
import VesselHub.Proofs.Model.Alias
import VesselHub.Proofs.Model.Named
import VesselHub.Proofs.Model.Standing

namespace VesselHub

/-- Keys that a dotted path can hold and that do not begin with the alias of the local vessel. -/
def Path.IsAddress (trail : List String) : Prop :=
  (∀ key ∈ trail, Path.IsPlain key) ∧ ¬ aliasKeys <+: trail

/-- A node holds a leaf, or it is a branch. -/
theorem Content.leaf_or_inner (content : Content) :
    (∃ held, content = .leaf held) ∨ content.isLeaf = false := by
  cases content with
  | leaf held => exact Or.inl ⟨held, rfl⟩
  | object | array => exact Or.inr rfl

/-- The children of a node with their keys; those of an array have their positions. -/
def Content.named : Content → List (String × NodeId)
  | .object children => children
  | .array items => items.zipIdx.map fun entry => (Path.positionKey entry.2, entry.1)
  | .leaf _ => []

namespace Model

/-- The nodes of leaves with the keys that lead to them, depth first, down to `depth` levels. -/
def leafNodesWithin (model : Model) : Nat → NodeId → List (List String × NodeId)
  | 0, _ => []
  | depth + 1, id =>
      match model.content? id with
      | none => []
      | some (.leaf _) => [([], id)]
      | some content =>
          content.named.flatMap fun entry =>
            (model.leafNodesWithin depth entry.2).map fun found => (entry.1 :: found.1, found.2)

/-- The nodes of all leaves with the keys that lead to them. -/
def leafNodes (model : Model) : List (List String × NodeId) :=
  model.leafNodesWithin model.slots.size model.root

/-- The paths that leaves are reported under tell them apart, and each leads back to the node of
its leaf. -/
def Addressable (model : Model) : Prop :=
  ((model.leaves model.root).map Prod.fst).Nodup ∧
    ∀ found ∈ model.leafNodes, model.nodeAt? (Path.dotted found.1) = some found.2

end Model

/-! ### Leaf nodes -/

namespace Tree

private theorem childTrails_eq_flatMap (children : List (String × Tree)) :
    childTrails children = children.flatMap fun entry =>
      entry.2.leafTrails.map fun found => (entry.1 :: found.1, found.2) := by
  induction children with
  | nil => rfl
  | cons entry children induction_step =>
      rw [childTrails, induction_step, List.flatMap_cons]

private theorem itemTrails_eq_flatMap (items : List Tree) (start : Nat) :
    itemTrails start items = (items.zipIdx start).flatMap fun entry =>
      entry.1.leafTrails.map fun found => (Path.positionKey entry.2 :: found.1, found.2) := by
  induction items generalizing start with
  | nil => rfl
  | cons item items induction_step =>
      rw [itemTrails, induction_step, List.zipIdx_cons, List.flatMap_cons]

end Tree

namespace Model

variable {model : Model} {layout : Layout}

theorem leafNodesWithin_of_content? {id : NodeId} {content : Content}
    (content_eq : model.content? id = some content) (inner : content.isLeaf = false)
    (depth : Nat) : model.leafNodesWithin (depth + 1) id =
      content.named.flatMap fun entry =>
        (model.leafNodesWithin depth entry.2).map fun found => (entry.1 :: found.1, found.2) := by
  rw [leafNodesWithin, content_eq]
  cases content with
  | leaf held => cases inner
  | object | array => rfl

/-- The leaves below a node are those below its children, in the order of the children. -/
theorem leafTrails_treeWithin {id : NodeId} {content : Content}
    (content_eq : model.content? id = some content) (inner : content.isLeaf = false)
    (depth : Nat) : (model.treeWithin (depth + 1) id).leafTrails =
      content.named.flatMap fun entry =>
        (model.treeWithin depth entry.2).leafTrails.map fun found =>
          (entry.1 :: found.1, found.2) := by
  rw [treeWithin, content_eq]
  cases content with
  | leaf held => cases inner
  | object children =>
      dsimp only
      rw [Tree.leafTrails, Tree.childTrails_eq_flatMap, List.flatMap_map]
      rfl
  | array items =>
      dsimp only
      rw [Tree.leafTrails, Tree.itemTrails_eq_flatMap, List.zipIdx_map, Content.named,
        List.flatMap_map, List.flatMap_map]
      rfl

/-- The nodes of leaves are listed in the order of the leaves. -/
theorem leafNodesWithin_leaves (model : Model) (depth : Nat) (id : NodeId) :
    ((model.leafNodesWithin depth id).map fun found => (found.1, model.leaf? found.2)) =
      (model.treeWithin depth id).leafTrails.map fun found => (found.1, some found.2) := by
  induction depth generalizing id with
  | zero => rfl
  | succ depth induction_step =>
      have below (key : String) (child : NodeId) := congrArg
        (List.map fun found : List String × Option Leaf => (key :: found.1, found.2))
        (induction_step child)
      simp only [List.map_map] at below
      cases content_eq : model.content? id with
      | none => rw [leafNodesWithin, treeWithin, content_eq]; rfl
      | some content =>
          rcases content.leaf_or_inner with ⟨held, rfl⟩ | inner
          · rw [leafNodesWithin, treeWithin, content_eq]
            simp [leaf?, content_eq, Tree.leafTrails]
          · rw [leafNodesWithin_of_content? content_eq inner,
              leafTrails_treeWithin content_eq inner, List.map_flatMap, List.map_flatMap]
            apply List.flatMap_congr
            intro entry _
            rw [List.map_map, List.map_map]
            exact below entry.1 entry.2

/-- The named children of the topmost node are the layouts right below. -/
theorem mem_named_iff {key : String} {id : NodeId} :
    (key, id) ∈ layout.content.named ↔ ∃ kid, layout.HasKid key kid ∧ kid.id = id := by
  cases layout with
  | leaf top held =>
      constructor
      · exact nofun
      · rintro ⟨_, nothing, _⟩
        cases nothing
  | object top children =>
      rw [Layout.content, Content.named, List.mem_map]
      constructor
      · rintro ⟨⟨_, kid⟩, kid_mem, same⟩
        cases same
        exact ⟨kid, kid_mem, rfl⟩
      · rintro ⟨kid, kid_mem, rfl⟩
        exact ⟨_, kid_mem, rfl⟩
  | array top items =>
      rw [Layout.content, Content.named, List.mem_map]
      constructor
      · rintro ⟨⟨_, position⟩, item_mem, same⟩
        cases same
        rw [List.mem_zipIdx_iff_getElem?, List.getElem?_map, Option.map_eq_some_iff] at item_mem
        obtain ⟨kid, kid_eq, kid_id⟩ := item_mem
        exact ⟨kid, ⟨position, kid_eq, rfl⟩, kid_id⟩
      · rintro ⟨kid, ⟨position, kid_eq, rfl⟩, rfl⟩
        refine ⟨(kid.id, position), ?_, rfl⟩
        rw [List.mem_zipIdx_iff_getElem?, List.getElem?_map, kid_eq, Option.map_some]

/-- A leaf node is listed with the keys that it stands at. -/
theorem Holds.mem_leafNodesWithin {parent : Option NodeId} (holds : model.Holds parent layout)
    {depth : Nat} (enough : layout.ids.length ≤ depth) {trail : List String} {node : NodeId} :
    (trail, node) ∈ model.leafNodesWithin depth layout.id ↔
      ∃ held, layout.StandsAt trail (.leaf node held) := by
  induction holds generalizing depth trail with
  | @intro parent layout here _ below induction_step =>
      have content_eq : model.content? layout.id = some layout.content := by
        simp [content?, here]
      cases depth with
      | zero => simp [Layout.ids_eq layout] at enough
      | succ depth =>
          have kid_iff : ∀ kid ∈ layout.kids, ∀ rest,
              (rest, node) ∈ model.leafNodesWithin depth kid.id ↔
                ∃ held, kid.StandsAt rest (.leaf node held) := by
            intro kid is_kid rest
            have shorter := Layout.length_ids_lt_of_mem_kids is_kid
            exact induction_step kid is_kid (by omega)
          cases inner : layout.content.isLeaf with
          | true =>
              cases layout with
              | leaf id held =>
                  rw [leafNodesWithin, content_eq]
                  exact List.mem_singleton.trans Layout.standsAt_leaf_iff.symm
              | object | array => cases inner
          | false =>
              rw [leafNodesWithin_of_content? content_eq inner, List.mem_flatMap]
              constructor
              · rintro ⟨⟨key, _⟩, entry_mem, found_mem⟩
                obtain ⟨kid, has_kid, rfl⟩ := mem_named_iff.1 entry_mem
                obtain ⟨⟨rest, _⟩, rest_mem, same⟩ := List.mem_map.1 found_mem
                cases same
                obtain ⟨held, stands⟩ := (kid_iff kid has_kid.mem_kids rest).1 rest_mem
                exact ⟨held, kid, has_kid, stands⟩
              · rintro ⟨held, stands⟩
                cases trail with
                | nil =>
                    cases stands
                    cases inner
                | cons key rest =>
                    obtain ⟨kid, has_kid, stands_below⟩ := stands
                    have listed := (kid_iff kid has_kid.mem_kids rest).2 ⟨held, stands_below⟩
                    exact ⟨(key, kid.id), mem_named_iff.2 ⟨kid, has_kid, rfl⟩,
                      List.mem_map.2 ⟨_, listed, rfl⟩⟩

namespace Intact

theorem mem_leafNodes (intact : model.Intact layout) {trail : List String} {node : NodeId} :
    (trail, node) ∈ model.leafNodes ↔ ∃ held, layout.StandsAt trail (.leaf node held) := by
  have enough := intact.stores.holds.length_le_slots intact.stores.distinct
  rw [leafNodes, ← intact.at_root]
  exact intact.stores.holds.mem_leafNodesWithin enough

/-- The leaves of the model are reported with the paths of their nodes. -/
theorem leafNodes_leaves (intact : model.Intact layout) :
    (model.leafNodes.map fun found => (Path.dotted found.1, model.leaf? found.2)) =
      (model.leaves model.root).map fun found => (found.1, some found.2) := by
  have live : model.contains model.root :=
    intact.at_root ▸ intact.stores.holds.live layout.id_mem_ids
  have listed := congrArg (List.map fun found => (Path.dotted found.1, found.2))
    (leafNodesWithin_leaves model model.slots.size model.root)
  rw [leaves, treeAt?, if_pos live]
  rw [List.map_map, List.map_map] at listed
  dsimp only
  rw [Tree.leaves, List.map_map]
  exact listed

/-- A node found at a path stands at keys that mean the same as those of the path. -/
theorem exists_standsAt (intact : model.Intact layout) {path : String} {node : NodeId}
    (found : model.nodeAt? path = some node) :
    ∃ target names, target.id = node ∧ layout.StandsAt names target ∧
      List.Forall₂ Layout.Means (model.resolver.resolve path).segments names := by
  rw [nodeAt?, ← intact.at_root, walk?_of_stores intact.stores] at found
  obtain ⟨target, target_eq, target_id⟩ := Option.map_eq_some_iff.1 found
  obtain ⟨names, stands, alike⟩ := Layout.exists_standsAt_of_walk? target_eq
  exact ⟨target, names, target_id, stands, alike⟩

end Intact

end Model

namespace Path

/-- Keys mean plain keys only if they are plain. -/
theorem plain_of_means {keys names : List String} (alike : List.Forall₂ Layout.Means keys names)
    (plain : ∀ key ∈ keys, IsPlain key) : ∀ name ∈ names, IsPlain name := by
  induction alike with
  | nil => exact nofun
  | cons means _ induction_step =>
      rw [List.forall_mem_cons] at plain ⊢
      refine ⟨?_, induction_step plain.2⟩
      rcases means with rfl | ⟨position, rfl⟩
      · exact plain.1
      · exact plain_positionKey position

/-- The dotted path of an address is that address. -/
theorem IsAddress.segments_resolve (resolver : Resolver) {trail : List String}
    (address : IsAddress trail) : (resolver.resolve (dotted trail)).segments = trail := by
  have cut : (ofText (dotted trail)).segments = trail := segmentsOf_dotted_of_plain address.1
  rw [Resolver.resolve, Resolver.segments_resolvePath, cut, if_neg address.2]

/-- An address may be given in parts. -/
theorem IsAddress.segments_resolveParts (resolver : Resolver) {trail : List String}
    (address : IsAddress trail) : (resolver.resolveParts trail).segments = trail := by
  have cut : (ofParts trail).segments = trail := flatMap_segmentsOf address.1
  rw [Resolver.resolveParts, Resolver.segments_resolvePath, cut, if_neg address.2]

private theorem positionKey_ne_selfKey (position : Nat) : positionKey position ≠ selfKey := by
  intro same
  have letter : 's' ∈ (positionKey position).toList := by
    rw [same]
    decide
  rw [positionKey, String.toList_ofList] at letter
  exact absurd (Nat.isDigit_of_mem_toDigits (by decide) (by decide) letter) (by decide)

/-- Keys that their own dotted path means are an address. -/
theorem isAddress_of_means {resolver : Resolver} (valid : resolver.IsValid) {trail : List String}
    (alike : List.Forall₂ Layout.Means (resolver.resolve (dotted trail)).segments trail) :
    IsAddress trail := by
  have plain := plain_of_means alike (Resolver.isResolved_resolve valid _).plain
  refine ⟨plain, ?_⟩
  rintro ⟨rest, rfl⟩
  rw [resolver.segments_resolve_alias plain,
    show aliasKeys ++ rest = vesselsKey :: selfKey :: rest from rfl, List.forall₂_cons,
    List.forall₂_cons] at alike
  rcases alike.2.1 with same | ⟨position, same⟩
  · exact valid.not_alias same.symm
  · exact positionKey_ne_selfKey position same.symm

end Path

/-! ### Reported paths -/

namespace Model

variable {model : Model} {layout : Layout}

namespace Intact

/-- The path of a leaf leads back to its node exactly if its keys are an address. -/
theorem nodeAt?_dotted_iff (intact : model.Intact layout) (valid : model.resolver.IsValid)
    (fits : model.slots.size ≤ Nat.pow 2 64) {trail : List String} {node : NodeId}
    (member : (trail, node) ∈ model.leafNodes) :
    model.nodeAt? (Path.dotted trail) = some node ↔ Path.IsAddress trail := by
  obtain ⟨held, stands⟩ := intact.mem_leafNodes.1 member
  constructor
  · intro found
    obtain ⟨target, names, same_id, stands_target, alike⟩ := intact.exists_standsAt found
    have names_eq : names = trail :=
      stands_target.unique intact.stores.distinct stands same_id
    rw [names_eq] at alike
    exact Path.isAddress_of_means valid alike
  · intro address
    have few := intact.stores.holds.length_le_slots intact.stores.distinct
    have walked := Layout.walk?_of_standsAt intact.stores.holds (Nat.le_trans few fits) stands
    rw [nodeAt?, address.segments_resolve, ← intact.at_root, walk?_of_stores intact.stores, walked]
    rfl

private theorem nodup_trails (intact : model.Intact layout) :
    (model.leafNodes.map Prod.fst).Nodup := by
  have trails := congrArg (List.map Prod.fst)
    (leafNodesWithin_leaves model model.slots.size model.root)
  rw [List.map_map, List.map_map] at trails
  rw [show model.leafNodes.map Prod.fst = model.tree.leafTrails.map Prod.fst from trails]
  exact Tree.nodup_leafTrails (distinctKeys_treeOf intact model.root)

theorem addressable_iff_isAddress (intact : model.Intact layout) (valid : model.resolver.IsValid)
    (fits : model.slots.size ≤ Nat.pow 2 64) :
    model.Addressable ↔ ∀ found ∈ model.leafNodes, Path.IsAddress found.1 := by
  constructor
  · rintro ⟨-, lead_back⟩ found member
    exact (intact.nodeAt?_dotted_iff valid fits member).1 (lead_back found member)
  · intro addresses
    constructor
    · have paths := congrArg (List.map Prod.fst) intact.leafNodes_leaves
      rw [List.map_map, List.map_map] at paths
      rw [show (model.leaves model.root).map Prod.fst =
        (model.leafNodes.map Prod.fst).map Path.dotted by rw [List.map_map]; exact paths.symm]
      apply intact.nodup_trails.map_on
      intro trail trail_mem other other_mem same
      obtain ⟨found, found_mem, rfl⟩ := List.mem_map.1 trail_mem
      obtain ⟨more, more_mem, rfl⟩ := List.mem_map.1 other_mem
      exact Path.dotted_injective (addresses found found_mem).1 (addresses more more_mem).1 same
    · intro found member
      exact (intact.nodeAt?_dotted_iff valid fits member).2 (addresses found member)

/-- Nodes stand at addresses if the keys of the tree are plain and the alias is not stored. -/
theorem isAddress_of_standsAt (intact : model.Intact layout)
    (fits : model.slots.size ≤ Nat.pow 2 64) (plain : model.tree.KeysHave Path.IsPlain)
    (no_alias : model.walk? model.root aliasKeys = none) {trail : List String} {target : Layout}
    (stands : layout.StandsAt trail target) : Path.IsAddress trail := by
  constructor
  · rw [intact.tree_eq] at plain
    exact Tree.forall_mem_of_standsAt plain Path.plain_positionKey stands.tree
  · rintro ⟨rest, rfl⟩
    obtain ⟨vessels, has_vessels, local_vessel, has_local, -⟩ := stands
    have stored : layout.StandsAt aliasKeys local_vessel :=
      ⟨vessels, has_vessels, local_vessel, has_local, rfl⟩
    have few := intact.stores.holds.length_le_slots intact.stores.distinct
    have walked := Layout.walk?_of_standsAt intact.stores.holds (Nat.le_trans few fits) stored
    rw [← intact.at_root, walk?_of_stores intact.stores, walked] at no_alias
    cases no_alias

theorem isAddress_of_plain (intact : model.Intact layout) (fits : model.slots.size ≤ Nat.pow 2 64)
    (plain : model.tree.KeysHave Path.IsPlain)
    (no_alias : model.walk? model.root aliasKeys = none) :
    ∀ found ∈ model.leafNodes, Path.IsAddress found.1 := by
  rintro ⟨trail, node⟩ member
  obtain ⟨held, stands⟩ := intact.mem_leafNodes.1 member
  exact intact.isAddress_of_standsAt fits plain no_alias stands

end Intact

/-- The leaves of a model that messages made can be addressed by the paths they are reported under
exactly if they all stand at addresses: at keys without dots that do not begin with the alias. They
do if no document brings another key and the alias is not stored. -/
theorem addressable_iff {config : Config} (valid : config.validate = .ok ())
    (messages : List (Instant × Json))
    (fits : (run config.selfId (messages.map fun message =>
      Operation.apply message.1 message.2)).slots.size ≤ 2 ^ 64) :
    let after := run config.selfId (messages.map fun message =>
      Operation.apply message.1 message.2)
    (after.leafNodes.map fun found => (Path.dotted found.1, after.leaf? found.2)) =
        (after.leaves after.root).map (fun found => (found.1, some found.2)) ∧
      (∀ found ∈ after.leafNodes,
        after.nodeAt? (Path.dotted found.1) = some found.2 ↔ Path.IsAddress found.1) ∧
      (after.Addressable ↔ ∀ found ∈ after.leafNodes, Path.IsAddress found.1) ∧
      ((∀ message ∈ messages, MessageKeys Path.IsPlain message.2) →
        after.walk? after.root aliasKeys = none → after.Addressable) := by
  intro after
  have resolver_valid := config.isValid_resolver valid
  obtain ⟨start, start_intact⟩ := intact_ofSelf config.selfId
  obtain ⟨tree, becomes, -⟩ := becomes_messages start_intact (fun _ => True) messages
    (fun _ _ _ _ _ _ => trivial) trivial
  obtain ⟨layout, intact⟩ : ∃ layout, after.Intact layout := becomes.intact
  have after_valid : after.resolver.IsValid := by
    rw [show after.resolver = _ from becomes.resolver, resolver_ofSelf]
    exact resolver_valid
  refine ⟨intact.leafNodes_leaves, fun found => intact.nodeAt?_dotted_iff after_valid fits,
    intact.addressable_iff_isAddress after_valid fits, ?_⟩
  intro brings no_alias
  have plain := keysHave_messages (fun _ => id) config.selfId resolver_valid.plain messages brings
  exact (intact.addressable_iff_isAddress after_valid fits).2
    (intact.isAddress_of_plain fits plain no_alias)

/-- A list of routes, and a delta for a value beside it. -/
def plannedRoutes : List (Instant × Json) :=
  [(⟨0, 0⟩, .object [("vessels", .object [("self", .object [("routes", .array [
      .object [("value", .ofNat 1)],
      .object [("legs", .object [("value", .ofNat 2)])]])])])]),
    (⟨1, 0⟩, .object [
      ("context", .string "vessels.self"),
      ("values", .array [.object [("path", .string "plan.name"), ("value", .string "home")],
        .object [("path", .string "speed"), ("value", .ofNat 3)]])])]

/-- The document of the routes has no key with a dot, so every leaf is found under its path, also
those of array items and of the delta. -/
theorem plannedRoutes_addressable :
    gullSettings.validate = .ok () ∧
      (run "gull" (plannedRoutes.map fun message =>
        Operation.apply message.1 message.2)).slots.size ≤ 2 ^ 64 ∧
      (run "gull" (plannedRoutes.map fun message =>
        Operation.apply message.1 message.2)).Addressable := by
  have valid : gullSettings.validate = .ok () := rfl
  have fits : (run "gull" (plannedRoutes.map fun message =>
      Operation.apply message.1 message.2)).slots.size ≤ 2 ^ 64 := by decide +kernel
  have plain : ∀ message ∈ plannedRoutes, MessageKeys Path.IsPlain message.2 := by decide +kernel
  exact ⟨valid, fits, (addressable_iff valid plannedRoutes fits).2.2.2 plain (by decide +kernel)⟩

/-- A document with a dotted key. -/
def dottedName : Json :=
  .object [("vessels", .object [("self", .object [("a.b", .object [("value", .ofNat 1)])])])]

/-- The path of a leaf can lead nowhere in a hub with valid settings. -/
theorem dotted_key_lost :
    ¬ ∀ (config : Config) (messages : List (Instant × Json)), config.validate = .ok () →
      (run config.selfId
        (messages.map fun message => Operation.apply message.1 message.2)).Addressable := by
  intro always
  have lead_back := (always gullSettings [(⟨0, 0⟩, dottedName)] rfl).2
  revert lead_back
  decide +kernel

end Model

end VesselHub
