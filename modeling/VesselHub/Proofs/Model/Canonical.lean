/-
Module: VesselHub.Proofs.Model.Canonical
Purpose: Models in which dotted paths can name every place: no key is empty or has a dot, and no
  vessel is stored under the alias of the local one. What paths lead to in them, and in their copies
  without private branches.
Main exports: Tree.Canonical, Tree.Canonical.safe, Tree.Canonical.not_aliasKeys_prefix,
  Model.IsCanonical, Model.isCanonical_run, Model.IsCanonical.safe
-/
import VesselHub.Proofs.Model.Address
import VesselHub.Proofs.Model.Rebuild
import VesselHub.Proofs.Path.Private

namespace VesselHub

/-! ### Joined paths -/

namespace Path

variable {path : Path} {trail : List String}

/-- A path with plain keys, and plain keys below it. -/
theorem segments_join_dotted (path_plain : ∀ key ∈ path.segments, IsPlain key)
    (trail_plain : ∀ key ∈ trail, IsPlain key) :
    (path.join (dotted trail)).segments = path.segments ++ trail := by
  rw [flatMap_join, flatMap_segmentsOf path_plain, flatMap_segmentsOf trail_plain]

theorem segments_join (path_plain : ∀ key ∈ path.segments, IsPlain key) (rest : String) :
    (path.join rest).segments = path.segments ++ segmentsOf rest := by
  rw [join, ofParts, List.flatMap_append, flatMap_segmentsOf path_plain,
    flatMap_segmentsOf fun _ => plain_of_mem_segmentsOf]

theorem plain_join (path : Path) (rest : String) :
    ∀ key ∈ (path.join rest).segments, IsPlain key :=
  plain_ofParts _

theorem raw_join (path : Path) (rest : String) :
    (path.join rest).raw = dotted (path.join rest).segments :=
  rfl

end Path

namespace Resolver

variable (resolver : Resolver)

/-- Keys that do not begin with the alias are resolved as they are. -/
theorem segments_resolve_dotted {keys : List String} (plain : ∀ key ∈ keys, Path.IsPlain key)
    (no_alias : ¬ aliasKeys <+: keys) :
    (resolver.resolve (Path.dotted keys)).segments = keys :=
  Path.IsAddress.segments_resolve resolver ⟨plain, no_alias⟩

/-- The key of all vessels leads to them. -/
theorem segments_resolve_vesselsKey : (resolver.resolve vesselsKey).segments = [vesselsKey] := by
  have spelled : vesselsKey = Path.dotted [vesselsKey] := by decide
  rw [spelled]
  exact resolver.segments_resolve_dotted (by decide) (by decide)

end Resolver

/-! ### Canonical trees -/

namespace Tree

section Decidable

variable (property : List String → Prop) [DecidablePred property]

mutual

instance decidableEveryObject : (tree : Tree) → Decidable (tree.EveryObject property)
  | .leaf _ => inferInstanceAs (Decidable True)
  | .object children =>
      have := decidableEveryChild children
      inferInstanceAs (Decidable (_ ∧ EveryChild property children))
  | .array items => decidableEveryItem items

instance decidableEveryChild :
    (children : List (String × Tree)) → Decidable (EveryChild property children)
  | [] => inferInstanceAs (Decidable True)
  | (_, child) :: children =>
      have := decidableEveryObject child
      have := decidableEveryChild children
      inferInstanceAs (Decidable (child.EveryObject property ∧ EveryChild property children))

instance decidableEveryItem : (items : List Tree) → Decidable (EveryItem property items)
  | [] => inferInstanceAs (Decidable True)
  | item :: items =>
      have := decidableEveryObject item
      have := decidableEveryItem items
      inferInstanceAs (Decidable (item.EveryObject property ∧ EveryItem property items))

end

end Decidable

end Tree

/-- Dotted paths can name every place of the tree: no object repeats a key, no key is empty or has a
dot, and no vessel is stored under the alias. -/
structure Tree.Canonical (tree : Tree) : Prop where
  distinct : tree.DistinctKeys
  plain : tree.PlainKeys
  no_alias : tree.storesAlias = false

namespace Tree

variable {tree branch : Tree} {keys : List String}

theorem plainKeys_safe (plain : tree.PlainKeys) : tree.safe.PlainKeys :=
  everyObject_safe (fun fewer all key member => all key (fewer.subset member)) plain

private theorem get?_childrenOf_safe {key : String} (is_public : Path.isPrivateKey key = false)
    (tree : Tree) :
    Entries.get? tree.safe.childrenOf key = (Entries.get? tree.childrenOf key).map safe := by
  cases tree with
  | leaf held => rfl
  | array items => rfl
  | object children => exact get?_safeChildren is_public children

/-- The alias is stored in a tree if it is without its private branches. -/
theorem storesAlias_safe (tree : Tree) : tree.safe.storesAlias = tree.storesAlias := by
  have vessels_public : Path.isPrivateKey vesselsKey = false := by decide
  have self_public : Path.isPrivateKey selfKey = false := by decide
  rw [storesAlias, storesAlias, walk?_aliasKeys, walk?_aliasKeys, aliasKeys, within?,
    get?_childrenOf_safe vessels_public, within?]
  cases Entries.get? tree.childrenOf vesselsKey with
  | none => rfl
  | some vessels =>
      rw [Option.map_some, Option.bind_some, Option.bind_some, within?,
        get?_childrenOf_safe self_public, within?]
      cases Entries.get? vessels.childrenOf selfKey <;> rfl

namespace Canonical

/-- Without its private branches a canonical tree is canonical. -/
theorem safe (canonical : tree.Canonical) : tree.safe.Canonical where
  distinct := distinctKeys_safe canonical.distinct
  plain := plainKeys_safe canonical.plain
  no_alias := (storesAlias_safe tree).trans canonical.no_alias

/-- Nothing is reached behind the alias. -/
theorem not_aliasKeys_prefix (canonical : tree.Canonical) (found : tree.walk? keys = some branch) :
    ¬ aliasKeys <+: keys := by
  rintro ⟨rest, rfl⟩
  have stored := canonical.no_alias
  rw [walk?_append] at found
  obtain ⟨vessel, vessel_eq, -⟩ := Option.bind_eq_some_iff.1 found
  rw [storesAlias, vessel_eq] at stored
  cases stored

end Canonical

end Tree

/-! ### Canonical models -/

namespace Model

/-- The slots hold a tree of which dotted paths can name every place, and the local id is one that
settings may have. -/
structure IsCanonical (model : Model) : Prop where
  intact : ∃ layout, model.Intact layout
  valid : model.resolver.IsValid
  plain : model.tree.PlainKeys
  no_alias : model.tree.storesAlias = false

/-- What operations make of the model of a hub is canonical if its keys are. -/
theorem isCanonical_run {config : Config} (valid : config.validate = .ok ())
    {operations : List Operation} (plain : (run config.selfId operations).tree.PlainKeys)
    (no_alias : (run config.selfId operations).tree.storesAlias = false) :
    (run config.selfId operations).IsCanonical where
  intact := run_intact config.selfId operations
  valid := by
    rw [resolver_run]
    exact config.isValid_resolver valid
  plain := plain
  no_alias := no_alias

variable {model : Model}

namespace IsCanonical

theorem tree (canonical : model.IsCanonical) : model.tree.Canonical where
  distinct := by
    obtain ⟨layout, intact⟩ := canonical.intact
    exact distinctKeys_treeOf intact _
  plain := canonical.plain
  no_alias := canonical.no_alias

/-- The copy without private branches holds what is left of the tree. -/
theorem tree_safe (canonical : model.IsCanonical) : model.safe.tree = model.tree.safe := by
  obtain ⟨layout, intact⟩ := canonical.intact
  obtain ⟨-, -, tree_eq, -⟩ := safe_spec intact
  exact tree_eq

/-- Jobs and requests read the copy without private branches, which is canonical too. -/
theorem safe (canonical : model.IsCanonical) : model.safe.IsCanonical := by
  obtain ⟨layout, intact⟩ := canonical.intact
  obtain ⟨copy, copy_intact, -, resolver_eq⟩ := safe_spec intact
  have safe_canonical := canonical.tree.safe
  rw [← canonical.tree_safe] at safe_canonical
  exact {
    intact := ⟨copy, copy_intact⟩
    valid := resolver_eq ▸ canonical.valid
    plain := safe_canonical.plain
    no_alias := safe_canonical.no_alias }

end IsCanonical

end Model

end VesselHub
