/-
Module: VesselHub.Proofs.Model.Alias
Purpose: When a vessel is stored under the alias of the local vessel. Documents and contexts never
  do that, but a delta does whose context and path spell the alias in two pieces, since the alias
  is looked for in each piece by itself.
Main exports: Tree.storesAlias, Delta.aliasEffect, Json.aliasAfter, Model.stores_alias_iff
-/
import VesselHub.Json.Insert
import VesselHub.Proofs.Model.Run
import VesselHub.Proofs.Path.Resolve
import VesselHub.Proofs.Tree.Merge
import VesselHub.Proofs.Tree.Within

namespace VesselHub

/-! ### What is stored -/

/-- Whether a vessel is stored under the alias. -/
def Tree.storesAlias (tree : Tree) : Bool :=
  (tree.walk? aliasKeys).isSome

/-- What a leaf that is written at some keys does to the alias: it is stored, it is gone, or
nothing changes. -/
def effectAt (keys : List String) : Option Bool :=
  if aliasKeys <+: keys then some true
  else if keys = [vesselsKey] then some false
  else none

/-- What a value does to the alias whose path is `path` below the context `context`. -/
def Delta.aliasEffect (context path : List String) : Option Bool :=
  if (context = [vesselsKey] ∧ path.head? = some selfKey) ∨
      (context = [] ∧ path = aliasKeys) then some true
  else if context = [] ∧ path = [vesselsKey] then some false
  else none

/-- The keys of the path of a value. -/
def AcceptedValue.keys (accepted : AcceptedValue) : List String :=
  (Path.ofText accepted.branch).segments ++ [accepted.key]

/-- Whether the alias is stored when the values of a delta have been written. -/
def Delta.aliasAfter (resolver : Resolver) (delta : Delta) (before : Bool) : Bool :=
  let context := (resolver.resolve delta.context).segments
  (delta.batches.flatMap Batch.accepted).foldl
    (fun stored accepted => (aliasEffect context accepted.keys).getD stored) before

/-- Whether something that has no vessels in it takes the place of all vessels. -/
def Json.replacesVessels : String × Json → Bool
  | (_, .object _) => false
  | (key, _) => key = vesselsKey

/-- Whether the alias is stored when a message has been applied. -/
def Json.aliasAfter (resolver : Resolver) (before : Bool) (message : Json) : Bool :=
  if (message.member? vesselsKey).isSome then
    before && !message.membersOf.any replacesVessels
  else if (message.member? "context").isNone then before
  else
    match Delta.decode message with
    | .ok delta => delta.aliasAfter resolver before
    | .error _ => before

namespace Tree

theorem walk?_aliasKeys (tree : Tree) : tree.walk? aliasKeys = tree.within? aliasKeys := by
  have no_position : Path.position? vesselsKey = none ∧ Path.position? selfKey = none := by
    decide
  cases tree with
  | leaf held => rfl
  | array items => simp [aliasKeys, walk?, child?, no_position.1, within?, childrenOf]
  | object children =>
      rw [aliasKeys, walk?, within?, child?, childrenOf]
      cases Entries.get? children vesselsKey with
      | none => rfl
      | some vessels =>
          cases vessels with
          | leaf held => rfl
          | array items =>
              simp [walk?, child?, no_position.2, within?, childrenOf]
          | object vessels => rfl

theorem storesAlias_write (tree : Tree) {keys : List String} (nonempty : keys ≠ [])
    (leaf : Leaf) : (tree.changeAt keys fun _ => .leaf leaf).storesAlias =
      (effectAt keys).getD tree.storesAlias := by
  rw [storesAlias, storesAlias, walk?_aliasKeys, walk?_aliasKeys, effectAt]
  split
  · rename_i below
    obtain ⟨more, rfl⟩ := below
    exact within?_changeAt_append tree aliasKeys more _
  · rename_i not_below
    split
    · rename_i at_vessels
      rw [at_vessels, aliasKeys, changeAt, within?_setChild_self]
      rfl
    · rename_i not_vessels
      rw [within?_changeAt not_below]
      · rfl
      · -- Only the two keys themselves could be written above the vessel.
        intro rest split
        rcases keys with _ | ⟨first, _ | ⟨second, keys⟩⟩
        · exact absurd rfl nonempty
        · cases split
          exact absurd rfl not_vessels
        · simp only [aliasKeys, List.cons_append, List.cons.injEq, List.nil_eq,
            List.append_eq_nil_iff] at split
          obtain ⟨rfl, rfl, rfl, rfl⟩ := split
          exact absurd List.prefix_rfl not_below

/-- Creating the branch of a context leaves the alias as it is. -/
theorem storesAlias_changeAt_id (tree : Tree) {keys : List String}
    (not_below : ¬ aliasKeys <+: keys) :
    (tree.changeAt keys id).storesAlias = tree.storesAlias := by
  rw [storesAlias, storesAlias, walk?_aliasKeys, walk?_aliasKeys, within?_changeAt not_below]
  exact fun _ _ _ => rfl

/-! ### Documents -/

variable {resolver : Resolver}

private theorem resolveKey_ne_alias (valid : resolver.IsValid) (key : String) :
    resolver.resolveKey key ≠ selfKey := by
  rw [Resolver.resolveKey]
  split
  · exact valid.not_alias
  · assumption

/-- The vessels of a document are never stored under the alias. -/
theorem get?_mergeVessels_alias (valid : resolver.IsValid) (tree : Tree)
    (vessels : List (String × Json)) :
    Entries.get? (mergeVessels resolver tree vessels).childrenOf selfKey =
      Entries.get? tree.childrenOf selfKey := by
  induction vessels generalizing tree with
  | nil => rfl
  | cons vessel vessels induction_step =>
      obtain ⟨key, value⟩ := vessel
      rw [mergeVessels, induction_step]
      exact get?_mergeChild_of_ne tree value (resolveKey_ne_alias valid key)

theorem storesAlias_setChild (tree child : Tree) :
    (tree.setChild vesselsKey child).storesAlias =
      (Entries.get? child.childrenOf selfKey).isSome := by
  rw [storesAlias, walk?_aliasKeys, aliasKeys, within?_setChild_self, within?]
  cases Entries.get? child.childrenOf selfKey <;> rfl

theorem storesAlias_eq_objectAt (tree : Tree) :
    tree.storesAlias =
      (Entries.get? (tree.objectAt vesselsKey).childrenOf selfKey).isSome := by
  have read := within?_objectAt tree vesselsKey selfKey []
  rw [storesAlias, walk?_aliasKeys, aliasKeys, ← read, within?]
  cases Entries.get? (tree.objectAt vesselsKey).childrenOf selfKey <;> rfl

private theorem storesAlias_congr {tree other : Tree}
    (same : Entries.get? tree.childrenOf vesselsKey = Entries.get? other.childrenOf vesselsKey) :
    tree.storesAlias = other.storesAlias := by
  rw [storesAlias_eq_objectAt, storesAlias_eq_objectAt, objectAt, objectAt, same]

/-- Something other than vessels under their key leaves none of them. -/
theorem storesAlias_mergeChild (tree : Tree) (key : String) (value : Json)
    (plain : ∀ members, value = .object members → key ≠ vesselsKey) :
    (tree.mergeChild key value).storesAlias =
      (tree.storesAlias && !Json.replacesVessels (key, value)) := by
  by_cases is_vessels : key = vesselsKey
  · subst is_vessels
    cases value with
    | object members => exact absurd rfl (plain members rfl)
    | array items => simp [mergeChild, storesAlias_setChild, Json.replacesVessels, childrenOf]
    | null => simp [mergeChild, putLeaf, storesAlias_setChild, Json.replacesVessels, childrenOf]
    | bool value =>
        simp [mergeChild, putLeaf, storesAlias_setChild, Json.replacesVessels, childrenOf]
    | number value =>
        simp [mergeChild, putLeaf, storesAlias_setChild, Json.replacesVessels, childrenOf]
    | string value =>
        simp [mergeChild, putLeaf, storesAlias_setChild, Json.replacesVessels, childrenOf]
  · have kept : Json.replacesVessels (key, value) = false := by
      cases value <;> simp [Json.replacesVessels, is_vessels]
    rw [kept, Bool.not_false, Bool.and_true]
    exact storesAlias_congr (get?_mergeChild_of_ne tree value is_vessels)

theorem storesAlias_mergeTop (valid : resolver.IsValid) (tree : Tree)
    (members : List (String × Json)) :
    (mergeTop resolver tree members).storesAlias =
      (tree.storesAlias && !members.any Json.replacesVessels) := by
  induction members generalizing tree with
  | nil => simp [mergeTop]
  | cons member members induction_step =>
      obtain ⟨key, value⟩ := member
      rw [List.any_cons, Bool.not_or, ← Bool.and_assoc]
      by_cases vessel_wise : key = vesselsKey ∧ ∃ vessels, value = .object vessels
      · obtain ⟨rfl, vessels, rfl⟩ := vessel_wise
        rw [mergeTop, induction_step, if_pos rfl, storesAlias_setChild,
          get?_mergeVessels_alias valid, ← storesAlias_eq_objectAt]
        simp [Json.replacesVessels]
      · have plain : ∀ members, value = .object members → key ≠ vesselsKey :=
          fun vessels is_object is_vessels => vessel_wise ⟨is_vessels, vessels, is_object⟩
        have one : mergeTop resolver tree ((key, value) :: members) =
            mergeTop resolver (tree.mergeChild key value) members := by
          cases value with
          | object vessels => rw [mergeTop, if_neg (plain vessels rfl)]
          | _ => rfl
        rw [one, induction_step, storesAlias_mergeChild tree key value plain]

/-! ### Deltas -/

theorem aliasKeys_prefix_iff (first second : String) (rest : List String) :
    aliasKeys <+: first :: second :: rest ↔ first = vesselsKey ∧ second = selfKey := by
  rw [aliasKeys, List.cons_prefix_cons, List.cons_prefix_cons]
  simp [eq_comm]

/-- Two keys that are not those of the alias keep it out of what is written below them. -/
theorem effectAt_apart {first second : String}
    (differs : ¬ (first = vesselsKey ∧ second = selfKey)) (rest : List String) :
    effectAt (first :: second :: rest) = none := by
  rw [effectAt, if_neg (mt (aliasKeys_prefix_iff first second rest).1 differs),
    if_neg (by simp)]

/-- Below the root the alias is known, unless it ends the path. -/
theorem effectAt_below_root (valid : resolver.IsValid) (branch key : String) :
    effectAt ((resolver.resolve branch).segments ++ [key]) =
      Delta.aliasEffect [] ((Path.ofText branch).segments ++ [key]) := by
  by_cases starts : ∃ rest, (Path.ofText branch).segments = vesselsKey :: selfKey :: rest
  · obtain ⟨rest, segments⟩ := starts
    have resolved : (resolver.resolve branch).segments =
        vesselsKey :: resolver.selfId :: rest := by
      rw [Resolver.resolve, Resolver.resolvePath, segments]
      simp
    rw [resolved, segments, List.cons_append, List.cons_append,
      effectAt_apart fun same => valid.not_alias same.2]
    simp [Delta.aliasEffect, aliasKeys]
  · rw [not_exists] at starts
    rw [Resolver.resolve, Resolver.resolvePath_of_no_alias starts]
    generalize (Path.ofText branch).segments = segments at starts
    rcases segments with _ | ⟨first, _ | ⟨second, rest⟩⟩
    · simp [effectAt, Delta.aliasEffect, aliasKeys]
    · rw [List.cons_append, List.nil_append, effectAt, Delta.aliasEffect]
      simp only [aliasKeys_prefix_iff]
      simp [aliasKeys]
    · have differs : ¬ (first = vesselsKey ∧ second = selfKey) := by
        rintro ⟨rfl, rfl⟩
        exact starts rest rfl
      rw [List.cons_append, List.cons_append, effectAt_apart differs]
      simp [Delta.aliasEffect, aliasKeys]

/-- What a value does is told from its context and its path. -/
theorem effectAt_value (valid : resolver.IsValid) {context : Path} (resolved : context.IsResolved)
    (accepted : AcceptedValue) :
    effectAt (context.segments ++
        ((resolver.pathBelow context.segments accepted.branch).segments ++ [accepted.key])) =
      Delta.aliasEffect context.segments accepted.keys := by
  have no_alias := resolved.no_alias
  rw [AcceptedValue.keys]
  -- The number of keys in the context tells whether the path can still spell the alias.
  generalize context.segments = keys at no_alias
  rcases keys with _ | ⟨first, _ | ⟨second, rest⟩⟩
  · exact effectAt_below_root valid accepted.branch accepted.key
  · rw [Resolver.pathBelow, if_neg (List.cons_ne_nil _ _), List.cons_append, List.nil_append]
    cases path : (Path.ofText accepted.branch).segments ++ [accepted.key] with
    | nil => simp at path
    | cons second rest =>
        have same := aliasKeys_prefix_iff first second rest
        simp [effectAt, Delta.aliasEffect, same]
  · have differs : ¬ (first = vesselsKey ∧ second = selfKey) := by
      rintro ⟨rfl, rfl⟩
      exact no_alias rest rfl
    rw [List.cons_append, List.cons_append, effectAt_apart differs]
    simp [Delta.aliasEffect]

/-- Values one after the other. -/
theorem storesAlias_writeAll (valid : resolver.IsValid) {context : Path}
    (resolved : context.IsResolved) {source : String} {values : List AcceptedValue}
    {writes : List (List String × Leaf)}
    (written : List.Forall₂ (Batch.Writes resolver context.segments source) values writes)
    (tree : Tree) :
    (tree.writeAll writes).storesAlias = values.foldl (fun stored accepted =>
      (Delta.aliasEffect context.segments accepted.keys).getD stored) tree.storesAlias := by
  induction written generalizing tree with
  | nil => rfl
  | @cons accepted write values writes first rest induction_step =>
      have nonempty : write.1 ≠ [] := by
        rw [first.path]
        simp
      have one := tree.storesAlias_write nonempty write.2
      rw [first.path, effectAt_value valid resolved, ← first.path] at one
      rw [List.foldl_cons, ← one]
      exact induction_step _

theorem storesAlias_writeBatches (valid : resolver.IsValid) {context : Path}
    (resolved : context.IsResolved) {batches : List Batch}
    {writes : List (List (List String × Leaf))}
    (written : List.Forall₂ (fun batch => List.Forall₂
      (Batch.Writes resolver context.segments batch.source) batch.accepted) batches writes)
    (tree : Tree) :
    (tree.writeBatches context.segments writes).storesAlias =
      (batches.flatMap Batch.accepted).foldl (fun stored accepted =>
        (Delta.aliasEffect context.segments accepted.keys).getD stored) tree.storesAlias := by
  have no_alias : ¬ aliasKeys <+: context.segments := fun ⟨rest, starts⟩ =>
    resolved.no_alias rest starts.symm
  induction written generalizing tree with
  | nil => rfl
  | cons first _ induction_step =>
      rw [List.flatMap_cons, List.foldl_append, ← storesAlias_changeAt_id tree no_alias,
        ← storesAlias_writeAll valid resolved first]
      exact induction_step _

end Tree

namespace Model

/-- A message stores the alias, takes it away, or leaves it as it is. -/
theorem becomes_message {model : Model} {layout : Layout} (intact : model.Intact layout)
    (valid : model.resolver.IsValid) (now : Instant) (message : Json) :
    ∃ tree, Becomes model (model.perform (.apply now message)) tree ∧
      tree.storesAlias = message.aliasAfter model.resolver model.tree.storesAlias := by
  rw [perform, apply, Json.aliasAfter]
  by_cases is_document : (message.member? vesselsKey).isSome
  · rw [if_pos is_document, if_pos is_document]
    refine ⟨_, becomes_merge intact message, ?_⟩
    cases message with
    | object members => exact Tree.storesAlias_mergeTop valid model.tree members
    | _ => exact (Bool.and_true _).symm
  · rw [if_neg is_document, if_neg is_document]
    by_cases no_context : (message.member? "context").isNone
    · rw [if_pos no_context, if_pos no_context]
      exact ⟨_, intact.becomes_refl, rfl⟩
    · rw [if_neg no_context, if_neg no_context]
      cases decoded : Delta.decode message with
      | error cause => exact ⟨_, intact.becomes_refl, rfl⟩
      | ok delta =>
          have resolved := Resolver.isResolved_resolve valid delta.context
          obtain ⟨writes, written, becomes, -⟩ := applyDelta_spec intact now delta
          rw [Resolver.resolve_raw resolved] at written becomes
          exact ⟨_, becomes, Tree.storesAlias_writeBatches valid resolved written model.tree⟩

/-- Messages one after the other. -/
theorem storesAlias_messages (messages : List (Instant × Json)) {model : Model}
    {layout : Layout} (intact : model.Intact layout) (valid : model.resolver.IsValid) :
    ∃ tree, Becomes model ((messages.map fun message =>
        Operation.apply message.1 message.2).foldl perform model) tree ∧
      tree.storesAlias = (messages.map Prod.snd).foldl (Json.aliasAfter model.resolver)
        model.tree.storesAlias := by
  induction messages generalizing model layout with
  | nil => exact ⟨_, intact.becomes_refl, rfl⟩
  | cons message messages induction_step =>
      obtain ⟨between, first, between_eq⟩ := becomes_message intact valid message.1 message.2
      obtain ⟨after, after_intact⟩ := first.intact
      obtain ⟨tree, rest, tree_eq⟩ := induction_step after_intact (first.resolver ▸ valid)
      refine ⟨tree, first.trans rest, ?_⟩
      rw [tree_eq, first.resolver, first.tree_eq, between_eq]
      rfl

/-- A hub starts with its local vessel, whose id is not the alias. -/
theorem storesAlias_ofSelf {id : String} (valid : (Resolver.ofText id).IsValid) :
    (ofSelf id).tree.storesAlias = false := by
  obtain ⟨empty, becomes, -⟩ := becomes_ofSelf id
  have resolved := Resolver.isResolved_resolve valid (Resolver.ofText id).selfContext
  rw [becomes.tree_eq, Tree.addPath, Tree.storesAlias_changeAt_id _ fun ⟨rest, starts⟩ =>
    resolved.no_alias rest starts.symm]
  rfl

/-- The slots and the tree agree on whether the alias is stored. -/
theorem exists_alias_iff {model : Model} (intact : ∃ layout, model.Intact layout) :
    (∃ node, model.walk? model.root aliasKeys = some node) ↔
      model.tree.storesAlias = true := by
  obtain ⟨layout, intact⟩ := intact
  rw [Tree.storesAlias, intact.tree_eq, Layout.tree_walk?, ← intact.at_root,
    walk?_of_stores intact.stores, Option.isSome_map]
  cases layout.walk? aliasKeys <;> simp

/-- After any messages, a vessel is stored under the alias if and only if the last message that
matters to the alias has a value whose context and path spell it in two pieces. -/
theorem stores_alias_iff {config : Config} (valid : config.validate = .ok ())
    (messages : List (Instant × Json)) :
    let model := run config.selfId
      (messages.map fun message => Operation.apply message.1 message.2)
    (∃ node, model.walk? model.root aliasKeys = some node) ↔
      (messages.map Prod.snd).foldl (Json.aliasAfter config.resolver) false = true := by
  intro model
  have resolver_valid := config.isValid_resolver valid
  have resolver_eq := resolver_ofSelf config.selfId
  obtain ⟨layout, intact⟩ := intact_ofSelf config.selfId
  obtain ⟨tree, becomes, stored⟩ :=
    storesAlias_messages messages intact (resolver_eq ▸ resolver_valid)
  rw [resolver_eq, storesAlias_ofSelf resolver_valid] at stored
  refine (exists_alias_iff becomes.intact).trans ?_
  rw [becomes.tree_eq, stored]
  rfl

/-- Standard settings with a short local id. -/
def gullSettings : Config := { Config.standard with selfId := "gull" }

/-- A name for the local vessel, whose alias is spelled by the context and the path together. -/
def splitName : Json :=
  .object [
    ("context", .string "vessels"),
    ("source", .object [("device", .string "log"), ("timestamp", .string "2014-08-15T16:00:00Z")]),
    ("values", .array [.object [("path", .string "self.name"), ("value", .string "Gull")]])]

/-- A document without vessels in the place of all vessels. -/
def noVessels : Json := .object [(vesselsKey, .array [])]

/-- What was stored under the alias is gone with all vessels. -/
theorem no_alias_without_vessels :
    gullSettings.validate = .ok () ∧
      ¬ ∃ node, (run "gull" [.apply ⟨0, 0⟩ splitName, .apply ⟨1, 0⟩ noVessels]).walk?
        (run "gull" [.apply ⟨0, 0⟩ splitName, .apply ⟨1, 0⟩ noVessels]).root aliasKeys =
          some node := by
  have valid : gullSettings.validate = .ok () := rfl
  have gone : ([splitName, noVessels].foldl (Json.aliasAfter gullSettings.resolver) false) ≠
      true := by decide +kernel
  exact ⟨valid, fun stored =>
    gone ((stores_alias_iff valid [(⟨0, 0⟩, splitName), (⟨1, 0⟩, noVessels)]).1 stored)⟩

/-- The alias is not kept out of the vessels by valid settings. -/
theorem split_alias_stored :
    ¬ ∀ (config : Config) (messages : List (Instant × Json)), config.validate = .ok () →
      let model := run config.selfId
        (messages.map fun message => Operation.apply message.1 message.2)
      model.walk? model.root aliasKeys = none := by
  intro never
  have absent := never gullSettings [(⟨0, 0⟩, splitName)] rfl
  revert absent
  decide +kernel

end Model

end VesselHub
