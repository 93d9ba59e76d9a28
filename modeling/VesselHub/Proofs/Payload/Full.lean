/-
Module: VesselHub.Proofs.Payload.Full
Purpose: The full payload holds the leaves that a subscription selects, each at the keys that it
  stands at, and nothing else.
Main exports: Payload.IsContext, Payload.Selects, Payload.mem_places_iff, Payload.apart_covered,
  Model.full?_nests
-/
import VesselHub.Proofs.Json.Insert
import VesselHub.Proofs.Model.Canonical
import VesselHub.Proofs.Payload.Covered
import VesselHub.Proofs.Tree.Standing

namespace VesselHub

/-! ### Leaves stand apart -/

namespace Tree

variable {tree : Tree}

/-- No leaf stands above another. -/
theorem apart_leafTrails (distinct : tree.DistinctKeys) :
    tree.leafTrails.Pairwise fun one other => Path.Apart one.1 other.1 := by
  have differ := List.pairwise_map.1 (nodup_leafTrails distinct)
  refine differ.imp_of_mem fun has_one has_other different => ⟨fun starts => ?_, fun starts => ?_⟩
  · exact different (trail_eq_of_start distinct has_one has_other starts)
  · exact different (trail_eq_of_start distinct has_other has_one starts).symm

end Tree

namespace Payload

/-! ### What a subscription selects -/

/-- Keys that a subscription's context stands for: those that it names or, with a wildcard, those of
a vessel that it fits. -/
def IsContext (tree : Tree) (resolver : Resolver) (context : String) (above : List String) : Prop :=
  if '*' ∈ context.toList then
    ∃ pattern vessels key, Pattern.ofText (resolver.resolve context).raw = .ok pattern ∧
      tree.walk? [vesselsKey] = some (.object vessels) ∧ key ∈ Entries.keys vessels ∧
      above = [vesselsKey, key] ∧ pattern.fits (Path.dotted above) = true
  else above = (resolver.resolve context).segments

/-- A leaf stands below one of the contexts of a subscription, and the filter covers the path to it
from there. -/
def Selects (tree : Tree) (resolver : Resolver) (context : String) (filter : Pattern)
    (keys : List String) (held : Leaf) : Prop :=
  ∃ above trail branch, keys = above ++ trail ∧ IsContext tree resolver context above ∧
    tree.walk? above = some branch ∧ (trail, held) ∈ branch.leafTrails ∧
    filter.covers (Path.dotted trail) = true

/-- The keys of a covered leaf's full path, and the leaf. -/
def CoveredLeaf.place (found : CoveredLeaf) : List String × Leaf :=
  (found.full.segments, found.leaf)

variable {tree : Tree} {resolver : Resolver} {context : String} {filter : Pattern}

/-- A context is the one that is named or, with a wildcard, a vessel that it fits. -/
theorem mem_contexts_iff {path : Path} : path ∈ contexts tree resolver context ↔
    ('*' ∉ context.toList ∧ path = resolver.resolve context) ∨
      '*' ∈ context.toList ∧ ∃ pattern vessels key,
        Pattern.ofText (resolver.resolve context).raw = .ok pattern ∧
        tree.walk? [vesselsKey] = some (.object vessels) ∧ key ∈ Entries.keys vessels ∧
        path = Path.ofParts [vesselsKey, key] ∧ pattern.fits path.raw = true := by
  have at_vessels : tree.at? resolver vesselsKey = tree.walk? [vesselsKey] := by
    rw [Tree.at?, resolver.segments_resolve_vesselsKey]
  by_cases wild : '*' ∈ context.toList
  · simp only [contexts, wild, not_true_eq_false, if_false, false_and, false_or, true_and,
      at_vessels]
    cases pattern_eq : Pattern.ofText (resolver.resolve context).raw with
    | error reason => simp
    | ok pattern =>
        cases vessels_eq : tree.walk? [vesselsKey] with
        | none => simp
        | some vessels =>
            cases vessels with
            | leaf held => simp [childKeys]
            | array items => simp [childKeys]
            | object children =>
                simp only [childKeys, List.mem_filter, List.mem_map]
                constructor
                · rintro ⟨⟨key, key_mem, rfl⟩, fits⟩
                  exact ⟨pattern, children, key, rfl, rfl, key_mem, rfl, fits⟩
                · rintro ⟨_, _, key, pattern_same, vessels_same, key_mem, rfl, fits⟩
                  cases pattern_same
                  cases vessels_same
                  exact ⟨⟨key, key_mem, rfl⟩, fits⟩
  · simp [contexts, wild]

theorem context_isResolved (canonical : tree.Canonical) (valid : resolver.IsValid) {path : Path}
    (member : path ∈ contexts tree resolver context) : path.IsResolved := by
  rcases mem_contexts_iff.1 member with
    ⟨-, rfl⟩ | ⟨-, pattern, vessels, key, -, vessels_eq, key_mem, rfl, -⟩
  · exact Resolver.isResolved_resolve valid context
  · have key_plain := (Tree.EveryObject.walk? canonical.plain vessels_eq).1 key key_mem
    have segments := vessel_segments key_plain
    have plain : ∀ part ∈ (Path.ofParts [vesselsKey, key]).segments, Path.IsPlain part :=
      Path.plain_ofParts _
    refine ⟨plain, fun rest is_alias => ?_, Path.segmentsOf_dotted_of_plain plain⟩
    rw [segments, List.cons.injEq, List.cons.injEq] at is_alias
    -- The vessel would be stored under the alias.
    obtain ⟨vessel, vessel_eq⟩ : ∃ vessel, Entries.get? vessels key = some vessel := by
      cases get_eq : Entries.get? vessels key with
      | none => exact absurd key_mem ((Entries.get?_eq_none_iff vessels key).1 get_eq)
      | some vessel => exact ⟨vessel, rfl⟩
    have stored : tree.walk? ([vesselsKey] ++ [key]) = some vessel := by
      rw [Tree.walk?_append, vessels_eq, Option.bind_some, Tree.walk?, Tree.child?, vessel_eq]
      rfl
    refine canonical.not_aliasKeys_prefix stored ?_
    rw [is_alias.2.1]
    exact List.prefix_rfl

theorem isContext_iff (canonical : tree.Canonical) {above : List String} :
    IsContext tree resolver context above ↔
      ∃ path ∈ contexts tree resolver context, path.segments = above := by
  simp only [mem_contexts_iff, IsContext]
  by_cases wild : '*' ∈ context.toList
  · simp only [wild, if_true, not_true_eq_false, false_and, false_or, true_and]
    constructor
    · rintro ⟨pattern, vessels, key, pattern_eq, vessels_eq, key_mem, rfl, fits⟩
      have key_plain := (Tree.EveryObject.walk? canonical.plain vessels_eq).1 key key_mem
      refine ⟨_, ⟨pattern, vessels, key, pattern_eq, vessels_eq, key_mem, rfl, ?_⟩,
        vessel_segments key_plain⟩
      rw [← vessel_segments key_plain] at fits
      exact fits
    · rintro ⟨_, ⟨pattern, vessels, key, pattern_eq, vessels_eq, key_mem, rfl, fits⟩, rfl⟩
      have key_plain := (Tree.EveryObject.walk? canonical.plain vessels_eq).1 key key_mem
      exact ⟨pattern, vessels, key, pattern_eq, vessels_eq, key_mem, vessel_segments key_plain,
        fits⟩
  · simp only [wild, if_false, not_false_eq_true, true_and, false_and, or_false, exists_eq_left]
    exact eq_comm

/-- Where a covered leaf stands: below a context that leads to a branch. -/
private theorem exists_of_mem_covered (canonical : tree.Canonical) (valid : resolver.IsValid)
    {found : CoveredLeaf} (member : found ∈ covered tree resolver context filter) :
    ∃ branch trail, found.context ∈ contexts tree resolver context ∧
      tree.walk? found.context.segments = some branch ∧
      (trail, found.leaf) ∈ branch.leafTrails ∧ found.relative = Path.dotted trail ∧
      filter.covers found.relative = true ∧
      found.full.segments = found.context.segments ++ trail := by
  obtain ⟨is_context, branch, trail, branch_eq, in_trails, relative_eq, covers⟩ :=
    mem_covered.1 member
  have resolved := context_isResolved canonical valid is_context
  rw [Tree.at?, Resolver.resolve_raw resolved] at branch_eq
  have trail_plain := Tree.plain_of_mem_leafTrails
    (Tree.EveryObject.walk? canonical.plain branch_eq) in_trails
  refine ⟨branch, trail, is_context, branch_eq, in_trails, relative_eq, covers, ?_⟩
  rw [full_segments trail_plain relative_eq, Path.flatMap_segmentsOf resolved.plain]

/-- The covered leaves are those that the subscription selects. -/
theorem mem_places_iff (canonical : tree.Canonical) (valid : resolver.IsValid)
    {keys : List String} {held : Leaf} :
    (keys, held) ∈ (covered tree resolver context filter).map CoveredLeaf.place ↔
      Selects tree resolver context filter keys held := by
  rw [List.mem_map]
  constructor
  · rintro ⟨found, member, same⟩
    obtain ⟨branch, trail, is_context, branch_eq, in_trails, relative_eq, covers, segments⟩ :=
      exists_of_mem_covered canonical valid member
    cases same
    exact ⟨found.context.segments, trail, branch, segments,
      (isContext_iff canonical).2 ⟨_, is_context, rfl⟩, branch_eq, in_trails, relative_eq ▸ covers⟩
  · rintro ⟨above, trail, branch, rfl, is_context, branch_eq, in_trails, covers⟩
    obtain ⟨path, path_mem, rfl⟩ := (isContext_iff canonical).1 is_context
    have resolved := context_isResolved canonical valid path_mem
    have trail_plain := Tree.plain_of_mem_leafTrails
      (Tree.EveryObject.walk? canonical.plain branch_eq) in_trails
    refine ⟨⟨path, Path.dotted trail, held⟩, mem_covered.2 ⟨path_mem, branch, trail, ?_, in_trails,
      rfl, covers⟩, ?_⟩
    · rw [Tree.at?, Resolver.resolve_raw resolved]
      exact branch_eq
    · rw [CoveredLeaf.place, full_segments trail_plain rfl, Path.flatMap_segmentsOf resolved.plain]

/-! ### Covered leaves stand apart -/

theorem nodup_contexts (canonical : tree.Canonical) : (contexts tree resolver context).Nodup := by
  rw [contexts]
  split
  · exact List.nodup_singleton _
  · split
    · rename_i pattern vessels _ vessels_eq
      have distinct : vessels.DistinctKeys := Tree.EveryObject.walk? canonical.distinct vessels_eq
      have plain : vessels.PlainKeys := Tree.EveryObject.walk? canonical.plain vessels_eq
      have keys_distinct : (childKeys vessels).Nodup := by
        cases vessels with
        | leaf held => exact List.nodup_nil
        | array items => exact List.nodup_nil
        | object children => exact distinct.1
      refine (keys_distinct.map_on fun one one_mem other other_mem same => ?_).filter _
      have segments := congrArg Path.segments same
      rw [vessel_segments (plain_childKeys plain one one_mem),
        vessel_segments (plain_childKeys plain other other_mem)] at segments
      simpa using segments
    · exact List.nodup_nil

/-- The leaves below one context that the filter covers, in order. -/
def coveredBelow (tree : Tree) (resolver : Resolver) (filter : Pattern) (path : Path) :
    List CoveredLeaf :=
  match tree.at? resolver path.raw with
  | none => []
  | some branch =>
      (branch.leaves.filter fun found => filter.covers found.1).map fun found =>
        { context := path, relative := found.1, leaf := found.2 }

theorem covered_eq_flatMap : covered tree resolver context filter =
    (contexts tree resolver context).flatMap (coveredBelow tree resolver filter) :=
  rfl

theorem context_of_mem_coveredBelow {path : Path} {found : CoveredLeaf}
    (member : found ∈ coveredBelow tree resolver filter path) : found.context = path := by
  rw [coveredBelow] at member
  split at member
  · cases member
  · obtain ⟨_, -, rfl⟩ := List.mem_map.1 member
    rfl

/-- A covered leaf that stands at another, or above it, has its context. -/
private theorem context_eq_of_full (canonical : tree.Canonical) {one other : CoveredLeaf}
    (has_one : one ∈ covered tree resolver context filter)
    (has_other : other ∈ covered tree resolver context filter)
    (starts : one.full.segments <+: other.full.segments) : one.context = other.context := by
  obtain ⟨one_context, _, trail, one_eq, one_mem, one_relative, -⟩ := mem_covered.1 has_one
  obtain ⟨other_context, _, more, other_eq, other_mem, other_relative, -⟩ :=
    mem_covered.1 has_other
  have trail_plain := Tree.plain_of_mem_leafTrails
    (Tree.EveryObject.walk? canonical.plain one_eq) one_mem
  have more_plain := Tree.plain_of_mem_leafTrails
    (Tree.EveryObject.walk? canonical.plain other_eq) other_mem
  obtain ⟨rest, split⟩ := starts
  rw [full_segments trail_plain one_relative, full_segments more_plain other_relative,
    List.append_assoc] at split
  exact (contexts_unique canonical.plain one_context other_context split).1

/-- No covered leaf stands above another or at the same place. -/
theorem apart_covered (canonical : tree.Canonical) :
    (covered tree resolver context filter).Pairwise fun one other =>
      Path.Apart one.full.segments other.full.segments := by
  rw [covered_eq_flatMap, List.pairwise_flatMap]
  constructor
  · intro path _
    rw [coveredBelow]
    split
    · exact List.Pairwise.nil
    · rename_i branch branch_eq
      have plain : branch.PlainKeys := Tree.EveryObject.walk? canonical.plain branch_eq
      have apart := Tree.apart_leafTrails (Tree.EveryObject.walk? canonical.distinct branch_eq)
      rw [List.pairwise_map, Tree.leaves]
      apply List.Pairwise.filter
      rw [List.pairwise_map]
      refine apart.imp_of_mem fun has_one has_other apart => ?_
      rw [full_segments (Tree.plain_of_mem_leafTrails plain has_one) rfl,
        full_segments (Tree.plain_of_mem_leafTrails plain has_other) rfl]
      exact Path.apart_append_iff.2 apart
  · refine (nodup_contexts canonical).imp_of_mem fun has_one has_other differ => ?_
    intro one one_mem other other_mem
    have one_covered := List.mem_flatMap.2 ⟨_, has_one, one_mem⟩
    have other_covered := List.mem_flatMap.2 ⟨_, has_other, other_mem⟩
    rw [← covered_eq_flatMap] at one_covered other_covered
    rw [← context_of_mem_coveredBelow one_mem, ← context_of_mem_coveredBelow other_mem] at differ
    constructor
    · exact fun starts => differ (context_eq_of_full canonical one_covered other_covered starts)
    · exact fun starts =>
        differ (context_eq_of_full canonical other_covered one_covered starts).symm

/-! ### The payload -/

theorem full?_eq_insertAll : full? tree resolver context filter =
    if covered tree resolver context filter = [] then none
    else some (Json.insertAll (.object []) (((covered tree resolver context filter).map
      CoveredLeaf.place).map fun found => (found.1, found.2.encode))) := by
  rw [full?]
  cases covered tree resolver context filter with
  | nil => rfl
  | cons first others =>
      rw [if_neg (List.cons_ne_nil _ _), Json.insertAll, List.foldl_map, List.foldl_map]
      rfl

end Payload

/-- The full payload holds the leaves that the subscription selects, in their outbound form at the
keys that they stand at, and nothing else; without such leaves there is none. No leaf takes the
place of another. -/
theorem Model.full?_nests {model : Model} (canonical : model.IsCanonical) (context : String)
    (filter : Pattern) :
    let selects := Payload.Selects model.tree model.resolver context filter
    let leaves := (Payload.covered model.tree model.resolver context filter).map
      Payload.CoveredLeaf.place
    (∀ keys held, (keys, held) ∈ leaves ↔ selects keys held) ∧
      leaves.Pairwise (fun one other => Path.Apart one.1 other.1) ∧
      (Payload.full? model.tree model.resolver context filter = none ↔
        ∀ keys held, ¬ selects keys held) ∧
      ∀ document, Payload.full? model.tree model.resolver context filter = some document →
        document.Nests (leaves.map fun found => (found.1, found.2.encode)) := by
  intro selects leaves
  have selected : ∀ keys held, (keys, held) ∈ leaves ↔ selects keys held := fun keys held =>
    Payload.mem_places_iff canonical.tree canonical.valid
  have apart : leaves.Pairwise (fun one other => Path.Apart one.1 other.1) :=
    List.pairwise_map.2 (Payload.apart_covered canonical.tree)
  have none_covered : Payload.covered model.tree model.resolver context filter = [] ↔
      ∀ keys held, ¬ selects keys held := by
    rw [← List.map_eq_nil_iff (f := Payload.CoveredLeaf.place), List.eq_nil_iff_forall_not_mem,
      Prod.forall]
    exact forall₂_congr fun keys held => not_congr (selected keys held)
  refine ⟨selected, apart, ?_, fun document full_eq => ?_⟩
  · rw [Payload.full?_eq_insertAll, ← none_covered]
    simp only [ite_eq_left_iff, reduceCtorEq, imp_false, not_not]
  · rw [Payload.full?_eq_insertAll] at full_eq
    split at full_eq
    · cases full_eq
    · cases full_eq
      exact Json.nests_insertAll (List.pairwise_map.2 apart)

/-- The leaves of two vessels, one of them the local one, some of them in an array. -/
def anchorage : List Operation :=
  [.merge (.object [
    ("vessels", .object [
      ("self", .object [
        ("speed", .object [("value", .ofNat 3)]),
        ("tanks", .array [.object [("level", .object [("value", .ofNat 4)])]])]),
      ("gale", .object [("speed", .object [("value", .ofNat 5)])])])])]

theorem isCanonical_anchorage : (Model.run "gull" anchorage).IsCanonical :=
  have valid : Model.gullSettings.validate = .ok () := rfl
  Model.isCanonical_run valid (by decide +kernel) (by decide +kernel)

/-- The full payload of three leaves. -/
theorem anchorage_nests :
    let model := Model.run "gull" anchorage
    let leaves := (Payload.covered model.tree model.resolver "vessels.*" ⟨"*", [.wildcard]⟩).map
      Payload.CoveredLeaf.place
    model.IsCanonical ∧
      leaves.map Prod.fst = [["vessels", "gull", "speed"],
        ["vessels", "gull", "tanks", "0", "level"], ["vessels", "gale", "speed"]] ∧
      ∃ document, Payload.full? model.tree model.resolver "vessels.*" ⟨"*", [.wildcard]⟩ =
          some document ∧
        document.Nests (leaves.map fun found => (found.1, found.2.encode)) := by
  intro model leaves
  obtain ⟨document, full_eq⟩ : ∃ document, Payload.full? model.tree model.resolver "vessels.*"
      ⟨"*", [.wildcard]⟩ = some document := Option.isSome_iff_exists.1 (by decide +kernel)
  have nests := (Model.full?_nests isCanonical_anchorage "vessels.*" ⟨"*", [.wildcard]⟩).2.2.2
  exact ⟨isCanonical_anchorage, by decide +kernel, document, full_eq, nests document full_eq⟩

end VesselHub
