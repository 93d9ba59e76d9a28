/-
Module: VesselHub.Proofs.Query.Restriction
Purpose: When the answer to a request for values is a restriction of the document without private
  branches: unless a path spells the alias in two pieces or leads through an array, and what it
  spoils is not replaced.
Main exports: Tree.IsFound, Query.IsPlace, Model.get_restricts_iff
-/
import VesselHub.Proofs.Model.Canonical
import VesselHub.Proofs.Query.Places
import VesselHub.Proofs.Tree.Restriction

namespace VesselHub

/-! ### Where the branches are found -/

namespace Tree

variable {tree branch : Tree} {path : List String}

/-- A branch is found at a path: it is looked up along the first keys and stands at the others. -/
def IsFound (tree : Tree) (path : List String) (branch : Tree) : Prop :=
  ∃ above below middle, path = above ++ below ∧ tree.walk? above = some middle ∧
    middle.StandsAt below branch

theorem isFound_of_walk? (found : tree.walk? path = some branch) : tree.IsFound path branch :=
  ⟨path, [], branch, (List.append_nil path).symm, found, rfl⟩

private theorem isFound_nil (found : tree.IsFound [] branch) : branch = tree := by
  obtain ⟨above, below, middle, split, walked, stands⟩ := found
  obtain ⟨rfl, rfl⟩ := List.append_eq_nil_iff.1 split.symm
  cases walked
  exact stands

private theorem not_isFound_leaf {held : Leaf} {key : String} :
    ¬ (leaf held).IsFound (key :: path) branch := by
  rintro ⟨above, below, middle, split, walked, stands⟩
  cases above with
  | cons first above => cases walked
  | nil =>
      cases walked
      rw [List.nil_append] at split
      rw [← split] at stands
      obtain ⟨_, nothing, _⟩ := stands
      cases nothing

private theorem exists_child_of_isFound {children : List (String × Tree)} {key : String}
    (distinct : (Entries.keys children).Nodup)
    (found : (object children).IsFound (key :: path) branch) :
    ∃ child, Entries.get? children key = some child ∧ child.IsFound path branch := by
  obtain ⟨above, below, middle, split, walked, stands⟩ := found
  cases above with
  | cons first above =>
      obtain ⟨rfl, rfl⟩ := List.cons.inj split
      obtain ⟨child, child_eq, rest⟩ := Option.bind_eq_some_iff.1 walked
      exact ⟨child, child_eq, above, below, middle, rfl, rest, stands⟩
  | nil =>
      cases walked
      rw [List.nil_append] at split
      rw [← split] at stands
      obtain ⟨child, has_kid, below_child⟩ := stands
      exact ⟨child, Entries.get?_of_mem distinct has_kid, [], path, child, rfl, rfl, below_child⟩

/-- A branch is found through objects, or there is an array on the way. -/
theorem IsFound.within_or_array (distinct : tree.DistinctKeys) (found : tree.IsFound path branch) :
    tree.within? path = some branch ∨ ∃ above below items, path = above ++ below ∧ below ≠ [] ∧
      tree.within? above = some (.array items) := by
  induction path generalizing tree with
  | nil =>
      rw [isFound_nil found]
      exact .inl rfl
  | cons key path induction_step =>
      cases tree with
      | leaf held => exact absurd found not_isFound_leaf
      | array items => exact .inr ⟨[], key :: path, items, rfl, List.cons_ne_nil _ _, rfl⟩
      | object children =>
          obtain ⟨child, child_eq, below⟩ := exists_child_of_isFound distinct.1 found
          have into : ∀ keys, (object children).within? (key :: keys) = child.within? keys := by
            intro keys
            rw [within?, childrenOf, child_eq, Option.bind_some]
          rcases induction_step (EveryObject.child? distinct child_eq) below with
            reached | ⟨above, more, items, rfl, nonempty, here⟩
          · exact .inl ((into path).trans reached)
          · exact .inr ⟨key :: above, more, items, rfl, nonempty, (into above).trans here⟩

/-- No leaf stands above a branch that is found. -/
theorem IsFound.leads (distinct : tree.DistinctKeys) (found : tree.IsFound path branch) :
    tree.Leads path branch := by
  rcases found.within_or_array distinct with reached | ⟨upper, lower, items, split, nonempty, array⟩
  · refine ⟨fun other other_eq => ?_, fun above key below split held leaf_eq => ?_⟩
    · rw [reached] at other_eq
      exact (Option.some.inj other_eq).symm
    · subst split
      obtain ⟨children, is_object⟩ := within?_above (List.cons_ne_nil key below)
        (by rw [reached]; rfl)
      rw [is_object] at leaf_eq
      cases leaf_eq
  · refine ⟨fun other other_eq => ?_, fun above key below split_leaf held leaf_eq => ?_⟩
    · rw [split] at other_eq
      obtain ⟨children, is_object⟩ := within?_above nonempty (by rw [other_eq]; rfl)
      rw [is_object] at array
      cases array
    · have upper_starts : upper <+: path := ⟨lower, split.symm⟩
      have above_starts : above <+: path := ⟨key :: below, split_leaf.symm⟩
      rcases List.prefix_or_prefix_of_prefix upper_starts above_starts with starts | starts
      · rcases object_or_eq_of_prefix starts array leaf_eq with ⟨_, no_array⟩ | no_array
        · cases no_array
        · cases no_array
      · rcases object_or_eq_of_prefix starts leaf_eq array with ⟨_, no_leaf⟩ | no_leaf
        · cases no_leaf
        · cases no_leaf

end Tree

/-! ### The places of a request -/

namespace Query

variable {tree branch : Tree} {resolver : Resolver} {request : GetRequest}
  {place : List String × Tree}

/-- What a request selects is found at its path, unless the path begins with the alias; then it is
found below the local vessel. -/
def IsPlace (tree : Tree) (resolver : Resolver) (path : List String) (branch : Tree) : Prop :=
  tree.IsFound path branch ∨ ∃ rest, path = aliasKeys ++ rest ∧
    tree.walk? (vesselsKey :: resolver.selfId :: rest) = some branch

private theorem isPlace_of_at? {context : Path} {wanted : String}
    (found : tree.at? resolver (context.join wanted).raw = some branch) :
    IsPlace tree resolver (context.join wanted).segments branch := by
  have plain := context.plain_join wanted
  rw [Tree.at?, Path.raw_join] at found
  by_cases is_alias : aliasKeys <+: (context.join wanted).segments
  · obtain ⟨rest, split⟩ := is_alias
    rw [← split] at found plain ⊢
    rw [resolver.segments_resolve_alias plain] at found
    exact .inr ⟨rest, rfl, found⟩
  · rw [resolver.segments_resolve_dotted plain is_alias] at found
    exact .inl (Tree.isFound_of_walk? found)

theorem isPlace_of_mem_placesOf (canonical : tree.Canonical) {context : Path}
    (resolved : context.IsResolved) (context_eq : tree.walk? context.segments = some branch)
    {wanted : String} (member : place ∈ placesOf tree resolver context branch wanted) :
    IsPlace tree resolver place.1 place.2 := by
  rcases mem_placesOf_iff.1 member with ⟨-, _, trail, held, -, in_trails, -, rfl⟩ |
    ⟨-, found, at_eq, rfl⟩
  · have plain := Tree.plain_of_mem_leafTrails
      (Tree.EveryObject.walk? canonical.plain context_eq) in_trails
    exact .inl ⟨context.segments, trail, branch,
      Path.segments_join_dotted resolved.plain plain, context_eq,
      Tree.mem_leafTrails_iff.1 in_trails⟩
  · exact isPlace_of_at? at_eq

theorem isPlace_of_mem_places (canonical : tree.Canonical) (valid : resolver.IsValid)
    (member : place ∈ places tree resolver request) : IsPlace tree resolver place.1 place.2 := by
  have resolved := Resolver.isResolved_resolve valid request.context
  obtain ⟨branch, walked, selected⟩ := mem_places_iff.1 member
  rw [Tree.at?, Resolver.resolve_raw resolved] at walked
  rcases selected with ⟨-, rfl⟩ | ⟨wanted, -, below⟩
  · exact .inl (Tree.isFound_of_walk? walked)
  · exact isPlace_of_mem_placesOf canonical resolved walked below

/-- Nothing is found at keys that begin with the alias. -/
theorem within?_of_alias (canonical : tree.Canonical) {path : List String}
    (is_alias : aliasKeys <+: path) : tree.within? path = none := by
  cases found_eq : tree.within? path with
  | none => rfl
  | some found =>
      exact absurd is_alias (canonical.not_aliasKeys_prefix (Tree.walk?_of_within? found_eq))

theorem IsPlace.leads (canonical : tree.Canonical) {path : List String}
    (is_place : IsPlace tree resolver path branch) : tree.Leads path branch := by
  rcases is_place with found | ⟨rest, rfl, walked⟩
  · exact found.leads canonical.distinct
  · refine ⟨fun other other_eq => ?_, fun above key below split held leaf_eq => ?_⟩
    · rw [within?_of_alias canonical (List.prefix_append _ _)] at other_eq
      cases other_eq
    · -- The alias leaves the objects at the vessels or above, on the way to the local one.
      have starts : above <+: [vesselsKey] := by
        have on_way : above <+: aliasKeys ++ rest := ⟨key :: below, split.symm⟩
        have not_below : ¬ aliasKeys <+: above := fun is_alias => by
          rw [within?_of_alias canonical is_alias] at leaf_eq
          cases leaf_eq
        have on_alias := (List.prefix_or_prefix_of_prefix on_way
          (List.prefix_append aliasKeys rest)).resolve_right not_below
        exact (List.prefix_concat_iff.1 (show above <+: [vesselsKey] ++ [selfKey] from on_alias))
          |>.resolve_left fun same => not_below (same ▸ List.prefix_rfl)
      obtain ⟨more, vessels_eq⟩ := starts
      have further : vesselsKey :: resolver.selfId :: rest =
          above ++ (more ++ resolver.selfId :: rest) := by
        rw [← List.append_assoc, vessels_eq]
        rfl
      rw [further, Tree.walk?_append, Tree.walk?_of_within? leaf_eq, Option.bind_some] at walked
      cases more <;> cases walked

/-- A path of a request leads through objects, unless it begins with the alias or there is an array
on its way. -/
theorem IsPlace.within?_eq_none_iff (canonical : tree.Canonical) {path : List String}
    (is_place : IsPlace tree resolver path branch) :
    tree.within? path = none ↔ aliasKeys <+: path ∨ ∃ above below items, path = above ++ below ∧
      below ≠ [] ∧ tree.within? above = some (.array items) := by
  constructor
  · intro absent
    rcases is_place with found | ⟨rest, rfl, -⟩
    · rcases found.within_or_array canonical.distinct with reached | on_the_way
      · rw [absent] at reached
        cases reached
      · exact .inr on_the_way
    · exact .inl (List.prefix_append _ _)
  · rintro (is_alias | ⟨above, below, items, rfl, nonempty, array⟩)
    · exact within?_of_alias canonical is_alias
    · rw [Tree.within?_append, array, Option.bind_some]
      cases below with
      | nil => exact absurd rfl nonempty
      | cons key below => rfl

end Query

/-! ### Answers -/

namespace Model

/-- The answer to a request restricts the document without private branches exactly if every path
that the request selects leads through objects, or is replaced later where it does not, and if the
document is an object when nothing is selected. A path does not lead through objects if it begins
with the alias, or if an array is on its way. -/
theorem get_restricts_iff {model : Model} (canonical : model.IsCanonical) (request : GetRequest) :
    let places := Query.places model.safe.tree model.resolver request
    ((model.get request).Restricts model.safe.tree ↔
      (places = [] → ∃ children, model.safe.tree = .object children) ∧
        model.safe.tree.Settled (places.map Prod.fst)) ∧
    ∀ place ∈ places, model.safe.tree.within? place.1 = none ↔
      aliasKeys <+: place.1 ∨ ∃ above below items, place.1 = above ++ below ∧ below ≠ [] ∧
        model.safe.tree.within? above = some (.array items) := by
  intro places
  have safe_canonical : model.safe.tree.Canonical := canonical.safe.tree
  have is_place : ∀ place ∈ places, Query.IsPlace model.safe.tree model.resolver place.1 place.2 :=
    fun place => Query.isPlace_of_mem_places safe_canonical canonical.valid
  constructor
  · rw [get, ← canonical.tree_safe, Query.get_eq_insertAll]
    exact Json.restricts_insertAll_iff fun place member =>
      (is_place place member).leads safe_canonical
  · exact fun place member => (is_place place member).within?_eq_none_iff safe_canonical

/-- A tank with an array of readings. -/
def tankReadings : List Operation :=
  [.merge (.object [("vessels", .object [("self", .object [
    ("tanks", .array [.object [("level", .object [("value", .ofNat 4)])]]),
    ("speed", .object [("value", .ofNat 3)])])])])]

private theorem isCanonical_tankReadings : (run "gull" tankReadings).IsCanonical :=
  have valid : gullSettings.validate = .ok () := rfl
  isCanonical_run valid (by decide +kernel) (by decide +kernel)

/-- The path through the array is replaced by the array itself. -/
theorem tankReadings_restricts :
    let model := run "gull" tankReadings
    let request : GetRequest := ⟨"vessels.self", ["tanks.0.level", "tanks", "speed"]⟩
    model.IsCanonical ∧ (model.get request).Restricts model.safe.tree := by
  intro model request
  have paths : (Query.places model.safe.tree model.resolver request).map Prod.fst =
      [["vessels", "gull", "tanks", "0", "level"], ["vessels", "gull", "tanks"],
        ["vessels", "gull", "speed"]] := by decide +kernel
  have restricts_iff := (get_restricts_iff isCanonical_tankReadings request).1
  refine ⟨isCanonical_tankReadings, restricts_iff.2 ⟨fun nothing => ?_, ?_⟩⟩
  · rw [nothing] at paths
    cases paths
  · rw [paths]
    exact ⟨.inr ⟨["vessels", "gull", "tanks"], by decide, by decide +kernel⟩,
      .inl (by decide +kernel), .inl (by decide +kernel), trivial⟩

/-- The name of the local vessel. -/
def localName : List Operation :=
  [.merge (.object [("vessels", .object [("self", .object [
    ("name", .object [("value", .string "Gull")])])])])]

private theorem isCanonical_localName : (run "gull" localName).IsCanonical :=
  have valid : gullSettings.validate = .ok () := rfl
  isCanonical_run valid (by decide +kernel) (by decide +kernel)

/-- An answer can have the alias for a key, which no document has. -/
theorem alias_answered :
    ¬ ∀ (model : Model) (request : GetRequest), model.IsCanonical →
      (model.get request).Restricts model.safe.tree := by
  intro always
  have restricts := always (run "gull" localName) ⟨"vessels", ["self.name"]⟩ isCanonical_localName
  obtain ⟨part, answered⟩ : ∃ part, ((run "gull" localName).get
      ⟨"vessels", ["self.name"]⟩).locate? aliasKeys = some part :=
    Option.isSome_iff_exists.1 (by decide +kernel)
  obtain ⟨branch, found, -⟩ := restricts aliasKeys part answered (by decide +kernel)
  have absent : ((run "gull" localName).safe.tree.walk? aliasKeys).isNone = true := by
    decide +kernel
  rw [found] at absent
  cases absent

end Model

end VesselHub
