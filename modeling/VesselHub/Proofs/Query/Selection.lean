/-
Module: VesselHub.Proofs.Query.Selection
Purpose: Which leaves of a model without arrays a request for values and a request for paths select.
  A text with a wildcard selects for the first the leaves that it fits, for the second those that
  it covers; a text without one selects for both what is at its path or below it.
Main exports: Tree.isArrayFree, Query.Takes, Query.Lists, Query.exists_place_iff,
  Query.mem_list_iff, Model.get_iff_list
-/
import VesselHub.Proofs.Path.Pattern
import VesselHub.Proofs.Query.Restriction

namespace VesselHub

/-! ### Trees without arrays -/

namespace Tree

mutual

/-- No branch of the tree is an array. -/
def isArrayFree : Tree → Bool
  | .leaf _ => true
  | .object children => childrenAreArrayFree children
  | .array _ => false

def childrenAreArrayFree : List (String × Tree) → Bool
  | [] => true
  | (_, child) :: children => child.isArrayFree && childrenAreArrayFree children

end

variable {tree branch : Tree} {keys : List String}

private theorem isArrayFree_of_get? {children : List (String × Tree)} {key : String} {child : Tree}
    (free : childrenAreArrayFree children = true) (found : Entries.get? children key = some child) :
    child.isArrayFree = true := by
  induction children with
  | nil => cases found
  | cons entry children induction_step =>
      obtain ⟨present, first⟩ := entry
      rw [childrenAreArrayFree, Bool.and_eq_true] at free
      rw [Entries.get?] at found
      split at found
      · cases found
        exact free.1
      · exact induction_step free.2 found

theorem isArrayFree_of_within? (free : tree.isArrayFree = true)
    (found : tree.within? keys = some branch) : branch.isArrayFree = true := by
  induction keys generalizing tree with
  | nil =>
      cases found
      exact free
  | cons key keys induction_step =>
      obtain ⟨child, child_eq, rest⟩ := Option.bind_eq_some_iff.1 found
      cases tree with
      | leaf held => cases child_eq
      | array items => cases free
      | object children => exact induction_step (isArrayFree_of_get? free child_eq) rest

mutual

theorem isArrayFree_safe : ∀ {tree : Tree}, tree.isArrayFree = true → tree.safe.isArrayFree = true
  | .leaf _, _ => rfl
  | .object _, free => childrenAreArrayFree_safe free

theorem childrenAreArrayFree_safe : ∀ {children : List (String × Tree)},
    childrenAreArrayFree children = true → childrenAreArrayFree (safeChildren children) = true
  | [], _ => rfl
  | (key, child) :: children, free => by
      rw [childrenAreArrayFree, Bool.and_eq_true] at free
      rw [safeChildren]
      split
      · exact childrenAreArrayFree_safe free.2
      · rw [childrenAreArrayFree, Bool.and_eq_true]
        exact ⟨isArrayFree_safe free.1, childrenAreArrayFree_safe free.2⟩

end

/-- In a tree without arrays everything is found through objects. -/
theorem IsFound.within? (distinct : tree.DistinctKeys) (free : tree.isArrayFree = true)
    (found : tree.IsFound keys branch) : tree.within? keys = some branch := by
  rcases found.within_or_array distinct with reached | ⟨above, below, items, -, -, array⟩
  · exact reached
  · cases isArrayFree_of_within? free array

/-- What is found through objects is reached through objects in the document. -/
theorem walk?_encode (found : tree.within? keys = some branch) :
    tree.encode.walk? keys = some branch.encode := by
  induction keys generalizing tree with
  | nil =>
      cases found
      rfl
  | cons key keys induction_step =>
      obtain ⟨child, child_eq, rest⟩ := Option.bind_eq_some_iff.1 found
      cases tree with
      | leaf held => cases child_eq
      | array items => cases child_eq
      | object children =>
          rw [encode, encodeChildren_eq_map, Json.walk?, Json.member?, Entries.get?_map_values,
            show Entries.get? children key = some child from child_eq]
          exact induction_step rest

end Tree

/-! ### Leaves in a document -/

namespace Json

variable {tree : Tree} {full : List String} {held : Leaf}

/-- A branch that is put into a document brings the leaves that it holds, and takes none away. -/
theorem walk?_insertAt_leaf_iff {branch : Tree} {path : List String}
    (reached : tree.within? path = some branch) (leaf : tree.within? full = some (.leaf held))
    (document : Json) : (document.insertAt path branch.encode).walk? full = some held.encode ↔
      path <+: full ∨ document.walk? full = some held.encode := by
  rcases prefix_cases path full with ⟨rest, rfl⟩ | ⟨rest, below, rfl⟩ | elsewhere
  · rw [Tree.within?_append, reached, Option.bind_some] at leaf
    rw [walk?_insertAt_append, Tree.walk?_encode leaf]
    exact iff_of_true rfl (.inl (List.prefix_append _ _))
  · -- Nothing of the tree stands below the leaf.
    obtain ⟨children, no_leaf⟩ := Tree.within?_above below (by rw [reached]; rfl)
    rw [leaf] at no_leaf
    cases no_leaf
  · rw [walk?_insertAt_apart elsewhere]
    exact (or_iff_right elsewhere.1).symm

/-- The leaves that a document holds are those of the branches that have been put into it. -/
theorem walk?_insertAll_leaf_iff {places : List (List String × Tree)}
    (reached : ∀ place ∈ places, tree.within? place.1 = some place.2)
    (leaf : tree.within? full = some (.leaf held)) (document : Json) :
    (document.insertAll (places.map fun place => (place.1, place.2.encode))).walk? full =
        some held.encode ↔
      (∃ place ∈ places, place.1 <+: full) ∨ document.walk? full = some held.encode := by
  induction places generalizing document with
  | nil => simp [insertAll]
  | cons place places induction_step =>
      rw [List.forall_mem_cons] at reached
      rw [List.exists_mem_cons_iff, or_comm (a := place.1 <+: full), or_assoc,
        ← walk?_insertAt_leaf_iff reached.1 leaf document]
      exact induction_step reached.2 (document.insertAt place.1 place.2.encode)

end Json

/-! ### What requests select -/

namespace Query

/-- A request for values selects a path by a text: one with a wildcard must fit it. -/
def Takes (text path : String) : Prop :=
  ∃ pattern, Pattern.ofText text = .ok pattern ∧
    (if '*' ∈ text.toList then pattern.fits path else pattern.covers path) = true

/-- A request for paths selects a path by a text. -/
def Lists (text path : String) : Prop :=
  ∃ pattern, Pattern.ofText text = .ok pattern ∧ pattern.covers path = true

private theorem takes_iff {text path : String} {pattern : Pattern}
    (parsed : Pattern.ofText text = .ok pattern) : Takes text path ↔
      (if '*' ∈ text.toList then pattern.fits path else pattern.covers path) = true := by
  constructor
  · rintro ⟨other, other_parsed, selects⟩
    rw [parsed] at other_parsed
    cases other_parsed
    exact selects
  · exact fun selects => ⟨pattern, parsed, selects⟩

theorem Takes.lists {text path : String} (takes : Takes text path) : Lists text path := by
  obtain ⟨pattern, parsed, selects⟩ := takes
  refine ⟨pattern, parsed, ?_⟩
  split at selects
  · exact Pattern.partsCover_of_partsFit selects
  · exact selects

/-- A text whose wildcards end it selects the same for both. -/
theorem Lists.takes {text path : String} (lists : Lists text path)
    (open_end : '*' ∈ text.toList → (Text.split '.' text).getLast? = some "*") :
    Takes text path := by
  obtain ⟨pattern, parsed, covers⟩ := lists
  refine ⟨pattern, parsed, ?_⟩
  split
  · rename_i wild
    have last : pattern.parts.getLast? = some .wildcard := by
      rw [(Pattern.parts_of_ofText parsed).1, List.getLast?_map, open_end wild]
      rfl
    rw [Pattern.fits, Pattern.partsFit_eq_partsCover last]
    exact covers
  · exact covers

variable {tree branch : Tree} {resolver : Resolver} {context : Path} {trail : List String}
  {held : Leaf}

/-! ### Requests for values -/

/-- What a request selects is at its context or below it. -/
private theorem context_prefix_of_mem_places (valid : resolver.IsValid) {request : GetRequest}
    {place : List String × Tree} (member : place ∈ places tree resolver request) :
    (resolver.resolve request.context).segments <+: place.1 := by
  have below : ∀ text, (resolver.resolve request.context).segments <+:
      ((resolver.resolve request.context).join text).segments := by
    intro text
    rw [Path.segments_join (Resolver.isResolved_resolve valid request.context).plain]
    exact List.prefix_append _ _
  obtain ⟨branch, -, ⟨-, rfl⟩ | ⟨wanted, -, selected⟩⟩ := mem_places_iff.1 member
  · exact List.prefix_rfl
  · rcases mem_placesOf_iff.1 selected with ⟨-, _, trail, _, -, -, -, rfl⟩ | ⟨-, _, -, rfl⟩
    · exact below (Path.dotted trail)
    · exact below wanted

/-- In a tree without arrays what is selected below a vessel is found through objects. -/
theorem within?_of_mem_places (canonical : tree.Canonical) (valid : resolver.IsValid)
    (free : tree.isArrayFree = true) (request : GetRequest)
    (long : 2 ≤ (resolver.resolve request.context).segments.length) {place : List String × Tree}
    (member : place ∈ places tree resolver request) : tree.within? place.1 = some place.2 := by
  rcases isPlace_of_mem_places canonical valid member with found | ⟨rest, split, -⟩
  · exact found.within? canonical.distinct free
  · -- The context itself would begin with the alias.
    have starts := context_prefix_of_mem_places valid member
    rw [split] at starts
    obtain ⟨more, is_alias⟩ := List.prefix_of_prefix_length_le (List.prefix_append aliasKeys rest)
      starts long
    exact absurd is_alias.symm ((Resolver.isResolved_resolve valid request.context).no_alias more)

/-- A text with a wildcard selects a leaf for a request for values if its pattern fits the path. -/
private theorem exists_placeOf_wildcard_iff (canonical : tree.Canonical)
    (resolved : context.IsResolved) (context_eq : tree.walk? context.segments = some branch)
    (leaf : (trail, held) ∈ branch.leafTrails) {text : String} (wild : '*' ∈ text.toList)
    {pattern : Pattern} (parsed : Pattern.ofText text = .ok pattern) :
    (∃ place ∈ placesOf tree resolver context branch text,
      place.1 <+: context.segments ++ trail) ↔ pattern.fits (Path.dotted trail) = true := by
  have branch_plain : branch.PlainKeys := Tree.EveryObject.walk? canonical.plain context_eq
  have branch_distinct : branch.DistinctKeys :=
    Tree.EveryObject.walk? canonical.distinct context_eq
  constructor
  · rintro ⟨place, member, starts⟩
    rcases mem_placesOf_iff.1 member with ⟨-, _, more, _, other_parsed, in_trails, fits, rfl⟩ |
      ⟨plain, -⟩
    · rw [parsed] at other_parsed
      cases other_parsed
      rw [Path.segments_join_dotted resolved.plain
        (Tree.plain_of_mem_leafTrails branch_plain in_trails),
        List.prefix_append_right_inj] at starts
      rw [← Tree.trail_eq_of_start branch_distinct in_trails leaf starts]
      exact fits
    · exact absurd wild plain
  · intro fits
    refine ⟨_, mem_placesOf_iff.2 (.inl ⟨wild, pattern, trail, held, parsed, leaf, fits, rfl⟩), ?_⟩
    exact ⟨[], (List.append_nil _).trans (Path.segments_join_dotted resolved.plain
      (Tree.plain_of_mem_leafTrails branch_plain leaf))⟩

/-- A text without a wildcard selects the leaves at its path and below it. -/
private theorem exists_placeOf_plain_iff (canonical : tree.Canonical)
    (resolved : context.IsResolved)
    (stands : tree.within? (context.segments ++ trail) = some (.leaf held)) {text : String}
    (no_wildcard : '*' ∉ text.toList) :
    (∃ place ∈ placesOf tree resolver context branch text,
      place.1 <+: context.segments ++ trail) ↔ Path.segmentsOf text <+: trail := by
  have segments := Path.segments_join resolved.plain text
  constructor
  · rintro ⟨place, member, starts⟩
    rcases mem_placesOf_iff.1 member with ⟨wild, -⟩ | ⟨-, _, -, rfl⟩
    · exact absurd wild no_wildcard
    · rw [segments, List.prefix_append_right_inj] at starts
      exact starts
  · rintro ⟨rest, rfl⟩
    rw [← List.append_assoc, ← segments] at stands ⊢
    have no_alias : ¬ aliasKeys <+: (context.join text).segments := fun is_alias =>
      canonical.not_aliasKeys_prefix (Tree.walk?_of_within? stands)
        (is_alias.trans (List.prefix_append _ rest))
    rw [Tree.within?_append] at stands
    obtain ⟨found, found_eq, -⟩ := Option.bind_eq_some_iff.1 stands
    have at_eq : tree.at? resolver (context.join text).raw = some found := by
      rw [Tree.at?, Path.raw_join,
        resolver.segments_resolve_dotted (context.plain_join text) no_alias]
      exact Tree.walk?_of_within? found_eq
    exact ⟨_, mem_placesOf_iff.2 (.inr ⟨no_wildcard, found, at_eq, rfl⟩), List.prefix_append _ rest⟩

/-- A text selects a leaf for a request for values if it takes its path. -/
theorem exists_placeOf_iff (canonical : tree.Canonical) (resolved : context.IsResolved)
    (context_eq : tree.walk? context.segments = some branch)
    (leaf : (trail, held) ∈ branch.leafTrails)
    (stands : tree.within? (context.segments ++ trail) = some (.leaf held)) {text : String}
    {pattern : Pattern} (parsed : Pattern.ofText text = .ok pattern) :
    (∃ place ∈ placesOf tree resolver context branch text,
      place.1 <+: context.segments ++ trail) ↔ Takes text (Path.dotted trail) := by
  rw [takes_iff parsed]
  by_cases wild : '*' ∈ text.toList
  · rw [if_pos wild]
    exact exists_placeOf_wildcard_iff canonical resolved context_eq leaf wild parsed
  · have trail_plain := Tree.plain_of_mem_leafTrails
      (Tree.EveryObject.walk? canonical.plain context_eq) leaf
    rw [if_neg wild, Pattern.covers_dotted_iff parsed wild trail_plain]
    exact exists_placeOf_plain_iff canonical resolved stands wild

/-- A request for values selects a leaf below its context if one of its texts takes the path of the
leaf, or if it has none. -/
theorem exists_place_iff (canonical : tree.Canonical) (valid : resolver.IsValid)
    (request : GetRequest) (well_formed : ∀ text ∈ request.wanted,
      ∃ pattern, Pattern.ofText text = .ok pattern)
    (context_eq : tree.walk? (resolver.resolve request.context).segments = some branch)
    (leaf : (trail, held) ∈ branch.leafTrails)
    (stands : tree.within? ((resolver.resolve request.context).segments ++ trail) =
      some (.leaf held)) :
    (∃ place ∈ places tree resolver request,
        place.1 <+: (resolver.resolve request.context).segments ++ trail) ↔
      request.wanted = [] ∨ ∃ text ∈ request.wanted, Takes text (Path.dotted trail) := by
  have resolved := Resolver.isResolved_resolve valid request.context
  have at_eq : tree.at? resolver (resolver.resolve request.context).raw = some branch := by
    rw [Tree.at?, Resolver.resolve_raw resolved]
    exact context_eq
  have each : ∀ text ∈ request.wanted, (∃ place ∈ placesOf tree resolver
      (resolver.resolve request.context) branch text,
        place.1 <+: (resolver.resolve request.context).segments ++ trail) ↔
          Takes text (Path.dotted trail) := by
    intro text member
    obtain ⟨pattern, parsed⟩ := well_formed text member
    exact exists_placeOf_iff canonical resolved context_eq leaf stands parsed
  constructor
  · rintro ⟨place, member, starts⟩
    obtain ⟨found, found_eq, ⟨nothing, -⟩ | ⟨text, text_mem, below⟩⟩ := mem_places_iff.1 member
    · exact .inl nothing
    · rw [at_eq] at found_eq
      cases found_eq
      exact .inr ⟨text, text_mem, (each text text_mem).1 ⟨place, below, starts⟩⟩
  · rintro (nothing | ⟨text, text_mem, takes⟩)
    · exact ⟨_, mem_places_iff.2 ⟨branch, at_eq, .inl ⟨nothing, rfl⟩⟩, List.prefix_append _ _⟩
    · obtain ⟨place, below, starts⟩ := (each text text_mem).2 takes
      exact ⟨place, mem_places_iff.2 ⟨branch, at_eq, .inr ⟨text, text_mem, below⟩⟩, starts⟩

/-- In a tree without arrays the answer to a request for values holds a leaf below its context if
one of its texts takes the path of the leaf, or if it has none. -/
theorem walk?_get_leaf_iff (canonical : tree.Canonical) (valid : resolver.IsValid)
    (free : tree.isArrayFree = true) (request : GetRequest)
    (long : 2 ≤ (resolver.resolve request.context).segments.length)
    (well_formed : ∀ text ∈ request.wanted, ∃ pattern, Pattern.ofText text = .ok pattern)
    (context_eq : tree.walk? (resolver.resolve request.context).segments = some branch)
    (leaf : (trail, held) ∈ branch.leafTrails) :
    (get tree resolver request).walk?
        ((resolver.resolve request.context).segments ++ trail) = some held.encode ↔
      request.wanted = [] ∨ ∃ text ∈ request.wanted, Takes text (Path.dotted trail) := by
  have reached : ∀ place ∈ places tree resolver request, tree.within? place.1 = some place.2 :=
    fun place => within?_of_mem_places canonical valid free request long
  have stands : tree.within? ((resolver.resolve request.context).segments ++ trail) =
      some (.leaf held) :=
    Tree.IsFound.within? canonical.distinct free
      ⟨_, trail, branch, rfl, context_eq, Tree.mem_leafTrails_iff.1 leaf⟩
  have nothing_before : (Json.object []).walk?
      ((resolver.resolve request.context).segments ++ trail) ≠ some held.encode := by
    obtain ⟨key, keys, segments⟩ := List.exists_cons_of_ne_nil
      (List.ne_nil_of_length_pos (Nat.lt_of_lt_of_le Nat.zero_lt_two long))
    rw [segments]
    exact nofun
  rw [get_eq_insertAll, Json.walk?_insertAll_leaf_iff reached stands, or_iff_left nothing_before]
  exact exists_place_iff canonical valid request well_formed context_eq leaf stands

/-! ### Requests for paths -/

/-- A request for paths lists a leaf below its context if one of its patterns covers the path of the
leaf, or if it has none. -/
theorem mem_list_iff (canonical : tree.Canonical) (valid : resolver.IsValid)
    (request : ListRequest)
    (context_eq : tree.walk? (resolver.resolve request.context).segments = some branch)
    (leaf : (trail, held) ∈ branch.leafTrails) :
    ((resolver.resolve request.context).join (Path.dotted trail)).text ∈
        (list tree resolver request).paths ↔
      patternsOf request.wanted = [] ∨
        ∃ text ∈ request.wanted, Lists text (Path.dotted trail) := by
  have resolved := Resolver.isResolved_resolve valid request.context
  have at_eq : tree.at? resolver (resolver.resolve request.context).raw = some branch := by
    rw [Tree.at?, Resolver.resolve_raw resolved]
    exact context_eq
  have branch_plain : branch.PlainKeys := Tree.EveryObject.walk? canonical.plain context_eq
  have selected : (∃ pattern ∈ patternsOf request.wanted,
      pattern.covers (Path.dotted trail) = true) ↔
        ∃ text ∈ request.wanted, Lists text (Path.dotted trail) := by
    constructor
    · rintro ⟨pattern, member, covers⟩
      obtain ⟨text, text_mem, parsed⟩ := mem_patternsOf_iff.1 member
      exact ⟨text, text_mem, pattern, parsed, covers⟩
    · rintro ⟨text, text_mem, pattern, parsed, covers⟩
      exact ⟨pattern, mem_patternsOf_iff.2 ⟨text, text_mem, parsed⟩, covers⟩
  rw [← selected, mem_paths_iff]
  constructor
  · rintro ⟨other, more, _, other_eq, in_trails, covers, same⟩
    rw [at_eq] at other_eq
    cases other_eq
    -- Paths with the same text have the same keys.
    have segments := Path.dotted_injective (Path.plain_join _ _) (Path.plain_join _ _) same
    rw [Path.segments_join_dotted resolved.plain (Tree.plain_of_mem_leafTrails branch_plain leaf),
      Path.segments_join_dotted resolved.plain
        (Tree.plain_of_mem_leafTrails branch_plain in_trails)] at segments
    rw [List.append_cancel_left segments]
    exact covers
  · exact fun covers => ⟨branch, trail, held, at_eq, leaf, covers, rfl⟩

end Query

/-! ### Both requests -/

namespace Model

/-- Below a context of at least two keys, in a model without arrays, the answer to a request for
values holds a leaf if the request is for the context or one of its texts takes the path of the
leaf. The answer to a request for paths lists it if a text covers that path. What is held is listed,
and what is listed is held if the wildcards of every text end it. -/
theorem get_iff_list {model : Model} (canonical : model.IsCanonical)
    (free : model.tree.isArrayFree = true) {context : String}
    (long : 2 ≤ (Path.segmentsOf context).length) {wanted : List String}
    (well_formed : ∀ text ∈ wanted, ∃ pattern, Pattern.ofText text = .ok pattern)
    {branch : Tree} (here : model.safe.tree.at? model.resolver context = some branch)
    {trail : List String} {held : Leaf} (leaf : (trail, held) ∈ branch.leafTrails) :
    let full := (model.resolver.resolve context).join (Path.dotted trail)
    let contained := (model.get ⟨context, wanted⟩).walk? full.segments = some held.encode
    let listed := full.text ∈ (model.list ⟨context, wanted⟩).paths
    (contained ↔ wanted = [] ∨ ∃ text ∈ wanted, Query.Takes text (Path.dotted trail)) ∧
      (listed ↔ wanted = [] ∨ ∃ text ∈ wanted, Query.Lists text (Path.dotted trail)) ∧
      (contained → listed) ∧
      ((∀ text ∈ wanted, '*' ∈ text.toList → (Text.split '.' text).getLast? = some "*") →
        (contained ↔ listed)) := by
  intro full contained listed
  rw [canonical.tree_safe] at here
  have safe_canonical := canonical.tree.safe
  have resolved := Resolver.isResolved_resolve canonical.valid context
  have trail_plain := Tree.plain_of_mem_leafTrails
    (Tree.EveryObject.walk? safe_canonical.plain here) leaf
  have full_segments : full.segments = (model.resolver.resolve context).segments ++ trail :=
    Path.segments_join_dotted resolved.plain trail_plain
  have long_context : 2 ≤ (model.resolver.resolve context).segments.length := by
    rw [model.resolver.length_segments_resolve]
    exact long
  have contained_iff : contained ↔
      wanted = [] ∨ ∃ text ∈ wanted, Query.Takes text (Path.dotted trail) := by
    have held_iff := Query.walk?_get_leaf_iff safe_canonical canonical.valid
      (Tree.isArrayFree_safe free) ⟨context, wanted⟩ long_context well_formed here leaf
    rw [← full_segments] at held_iff
    exact held_iff
  have listed_iff : listed ↔
      wanted = [] ∨ ∃ text ∈ wanted, Query.Lists text (Path.dotted trail) := by
    rw [← Query.patternsOf_eq_nil_iff well_formed]
    exact Query.mem_list_iff safe_canonical canonical.valid ⟨context, wanted⟩ here leaf
  have sound : contained → listed := by
    rw [contained_iff, listed_iff]
    exact Or.imp_right fun ⟨text, member, takes⟩ => ⟨text, member, takes.lists⟩
  refine ⟨contained_iff, listed_iff, sound, fun open_ends => ⟨sound, ?_⟩⟩
  rw [contained_iff, listed_iff]
  exact Or.imp_right fun ⟨text, member, lists⟩ =>
    ⟨text, member, lists.takes (open_ends text member)⟩

/-- The speed of the wind, in a model without arrays. -/
def windObserved : List Operation :=
  [.merge (.object [("vessels", .object [("self", .object [("environment", .object [
    ("wind", .object [("speed", .object [("value", .ofNat 7)])])])])])])]

theorem isCanonical_windObserved : (run "gull" windObserved).IsCanonical :=
  have valid : gullSettings.validate = .ok () := rfl
  isCanonical_run valid (by decide +kernel) (by decide +kernel)

/-- Where the speed of the wind is below its vessel. -/
def windTrail : List String := ["environment", "wind", "speed"]

/-- The speed of the wind is the leaf below the vessel. -/
theorem exists_leaf_windObserved :
    ∃ branch held, (run "gull" windObserved).safe.tree.at? (run "gull" windObserved).resolver
      "vessels.self" = some branch ∧ (windTrail, held) ∈ branch.leafTrails := by
  obtain ⟨branch, here⟩ : ∃ branch, (run "gull" windObserved).safe.tree.at?
      (run "gull" windObserved).resolver "vessels.self" = some branch :=
    Option.isSome_iff_exists.1 (by decide +kernel)
  have trails : ((run "gull" windObserved).safe.tree.at? (run "gull" windObserved).resolver
      "vessels.self").map (fun found => found.leafTrails.map Prod.fst) = some [windTrail] := by
    decide +kernel
  rw [here, Option.map_some, Option.some_inj] at trails
  obtain ⟨⟨trail, held⟩, leaf, rfl⟩ := List.mem_map.1 (trails ▸ List.mem_singleton_self windTrail)
  exact ⟨branch, held, here, leaf⟩

/-- A text that ends in its wildcard takes what it lists. -/
theorem windObserved_agree :
    let model := run "gull" windObserved
    let full := (model.resolver.resolve "vessels.self").join (Path.dotted windTrail)
    model.IsCanonical ∧ model.tree.isArrayFree = true ∧ ∃ held : Leaf,
      (model.get ⟨"vessels.self", ["environment.*"]⟩).walk? full.segments = some held.encode ∧
        full.text ∈ (model.list ⟨"vessels.self", ["environment.*"]⟩).paths := by
  intro model full
  obtain ⟨branch, held, here, leaf⟩ := exists_leaf_windObserved
  have well_formed : ∀ text ∈ ["environment.*"], ∃ pattern, Pattern.ofText text = .ok pattern := by
    intro text member
    rw [List.mem_singleton.1 member]
    exact ⟨_, rfl⟩
  have free : model.tree.isArrayFree = true := by decide +kernel
  have listed : full.text ∈ (model.list ⟨"vessels.self", ["environment.*"]⟩).paths := by
    decide +kernel
  obtain ⟨-, -, -, agree⟩ := get_iff_list isCanonical_windObserved free (by decide +kernel)
    well_formed here leaf
  refine ⟨isCanonical_windObserved, free, held, (agree fun text member _ => ?_).2 listed, listed⟩
  rw [List.mem_singleton.1 member]
  decide +kernel

/-- A text that names a branch through a wildcard lists what it does not take. -/
theorem wind_listed_only :
    ¬ ∀ (model : Model), model.IsCanonical → model.tree.isArrayFree = true →
      ∀ context : String, 2 ≤ (Path.segmentsOf context).length →
      ∀ wanted : List String, (∀ text ∈ wanted, ∃ pattern, Pattern.ofText text = .ok pattern) →
      ∀ branch : Tree, model.safe.tree.at? model.resolver context = some branch →
      ∀ trail held, (trail, held) ∈ branch.leafTrails →
        let full := (model.resolver.resolve context).join (Path.dotted trail)
        ((model.get ⟨context, wanted⟩).walk? full.segments = some held.encode ↔
          full.text ∈ (model.list ⟨context, wanted⟩).paths) := by
  intro always
  obtain ⟨branch, held, here, leaf⟩ := exists_leaf_windObserved
  have agree := always (run "gull" windObserved) isCanonical_windObserved (by decide +kernel)
    "vessels.self" (by decide +kernel) ["*.wind"] (fun text member => by
      rw [List.mem_singleton.1 member]
      exact ⟨_, rfl⟩) branch here windTrail held leaf
  have nothing : (((run "gull" windObserved).get ⟨"vessels.self", ["*.wind"]⟩).walk?
      (((run "gull" windObserved).resolver.resolve "vessels.self").join
        (Path.dotted windTrail)).segments).isNone = true := by decide +kernel
  rw [agree.2 (by decide +kernel)] at nothing
  cases nothing

end Model

end VesselHub
