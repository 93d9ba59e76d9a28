/-
Module: VesselHub.Proofs.Query.Places
Purpose: What requests select, as lists of paths and branches: what is put into the answer to a
  request for values, and the leaves that a request for paths names.
Main exports: Query.places, Query.get_eq_insertAll, Query.mem_places_iff, Query.mem_paths_iff
-/
import VesselHub.Proofs.Json.Insert
import VesselHub.Query

namespace VesselHub

namespace Query

/-! ### Requests for values -/

/-- The paths that a wanted text selects below a context, with the branches that are found. -/
def placesOf (tree : Tree) (resolver : Resolver) (context : Path) (branch : Tree)
    (wanted : String) : List (List String × Tree) :=
  if '*' ∈ wanted.toList then
    match Pattern.ofText wanted with
    | .error _ => []
    | .ok pattern =>
        (branch.leaves.filter fun found => pattern.fits found.1).map fun found =>
          ((context.join found.1).segments, .leaf found.2)
  else
    match tree.at? resolver (context.join wanted).raw with
    | some found => [((context.join wanted).segments, found)]
    | none => []

/-- The paths that a request selects, with the branches that are found, in the order in which they
are put into the answer. -/
def places (tree : Tree) (resolver : Resolver) (request : GetRequest) :
    List (List String × Tree) :=
  let context := resolver.resolve request.context
  match tree.at? resolver context.raw with
  | none => []
  | some branch =>
      if request.wanted.isEmpty then [(context.segments, branch)]
      else request.wanted.flatMap (placesOf tree resolver context branch)

variable {tree branch : Tree} {resolver : Resolver} {place : List String × Tree}

theorem addWanted_eq_insertAll (context : Path) (branch : Tree) (wanted : String) (answer : Json) :
    (if '*' ∈ wanted.toList then addMatching context branch wanted answer
      else addBranch tree resolver context wanted answer) =
    answer.insertAll ((placesOf tree resolver context branch wanted).map fun place =>
      (place.1, place.2.encode)) := by
  rw [placesOf]
  split
  · rw [addMatching]
    cases Pattern.ofText wanted with
    | error reason => rfl
    | ok pattern =>
        simp only [Json.insertAll, List.map_map, List.foldl_map]
        rfl
  · rw [addBranch]
    cases tree.at? resolver (context.join wanted).raw <;> rfl

/-- An answer is what one gets by putting the selected branches into an empty document. -/
theorem get_eq_insertAll (request : GetRequest) : get tree resolver request =
    Json.insertAll (.object []) ((places tree resolver request).map fun place =>
      (place.1, place.2.encode)) := by
  rw [get, places]
  cases tree.at? resolver (resolver.resolve request.context).raw with
  | none => rfl
  | some branch =>
    dsimp only
    split
    · rfl
    · have all : ∀ (texts : List String) (answer : Json), texts.foldl (fun answer wanted =>
          if '*' ∈ wanted.toList then addMatching (resolver.resolve request.context) branch wanted
            answer
          else addBranch tree resolver (resolver.resolve request.context) wanted answer) answer =
            answer.insertAll ((texts.flatMap (placesOf tree resolver
              (resolver.resolve request.context) branch)).map fun place =>
                (place.1, place.2.encode)) := by
        intro texts
        induction texts with
        | nil => exact fun answer => rfl
        | cons wanted texts induction_step =>
            intro answer
            rw [List.foldl_cons, addWanted_eq_insertAll, induction_step, List.flatMap_cons,
              List.map_append, Json.insertAll, Json.insertAll, Json.insertAll, List.foldl_append]
      exact all request.wanted (.object [])

/-- A text with a wildcard selects the leaves below the context that it fits; another selects what
is looked up at its path. -/
theorem mem_placesOf_iff {context : Path} {wanted : String} :
    place ∈ placesOf tree resolver context branch wanted ↔
      ('*' ∈ wanted.toList ∧ ∃ pattern trail held, Pattern.ofText wanted = .ok pattern ∧
        (trail, held) ∈ branch.leafTrails ∧ pattern.fits (Path.dotted trail) = true ∧
        place = ((context.join (Path.dotted trail)).segments, .leaf held)) ∨
      ('*' ∉ wanted.toList ∧ ∃ found, tree.at? resolver (context.join wanted).raw = some found ∧
        place = ((context.join wanted).segments, found)) := by
  rw [placesOf]
  by_cases wild : '*' ∈ wanted.toList
  · rw [if_pos wild, or_iff_left fun other => other.1 wild, and_iff_right wild]
    constructor
    · intro member
      cases parsed : Pattern.ofText wanted with
      | error reason =>
          rw [parsed] at member
          cases member
      | ok pattern =>
          rw [parsed] at member
          obtain ⟨⟨_, _⟩, found_mem, rfl⟩ := List.mem_map.1 member
          obtain ⟨in_leaves, fits⟩ := List.mem_filter.1 found_mem
          obtain ⟨⟨trail, held⟩, in_trails, same⟩ := List.mem_map.1 in_leaves
          cases same
          exact ⟨pattern, trail, held, rfl, in_trails, fits, rfl⟩
    · rintro ⟨pattern, trail, held, parsed, in_trails, fits, rfl⟩
      rw [parsed]
      refine List.mem_map.2 ⟨(Path.dotted trail, held), List.mem_filter.2 ⟨?_, fits⟩, rfl⟩
      exact List.mem_map.2 ⟨(trail, held), in_trails, rfl⟩
  · rw [if_neg wild, or_iff_right fun other => wild other.1, and_iff_right wild]
    cases tree.at? resolver (context.join wanted).raw with
    | none => simp
    | some found => simp

/-- A request without texts selects its context. -/
theorem mem_places_iff {request : GetRequest} :
    place ∈ places tree resolver request ↔
      ∃ branch, tree.at? resolver (resolver.resolve request.context).raw = some branch ∧
        ((request.wanted = [] ∧ place = ((resolver.resolve request.context).segments, branch)) ∨
          ∃ wanted ∈ request.wanted,
            place ∈ placesOf tree resolver (resolver.resolve request.context) branch wanted) := by
  rw [places]
  cases tree.at? resolver (resolver.resolve request.context).raw with
  | none => simp
  | some branch =>
      cases request.wanted with
      | nil => simp
      | cons text texts => simp

/-! ### Requests for paths -/

theorem mem_patternsOf_iff {texts : List String} {pattern : Pattern} :
    pattern ∈ patternsOf texts ↔ ∃ text ∈ texts, Pattern.ofText text = .ok pattern := by
  rw [patternsOf, List.mem_filterMap]
  refine exists_congr fun text => and_congr_right fun _ => ?_
  cases Pattern.ofText text <;> simp [Except.toOption]

theorem patternsOf_eq_nil_iff {texts : List String}
    (well_formed : ∀ text ∈ texts, ∃ pattern, Pattern.ofText text = .ok pattern) :
    patternsOf texts = [] ↔ texts = [] := by
  constructor
  · intro none_left
    refine List.eq_nil_iff_forall_not_mem.2 fun text member => ?_
    obtain ⟨pattern, parsed⟩ := well_formed text member
    have is_pattern := mem_patternsOf_iff.2 ⟨text, member, parsed⟩
    rw [none_left] at is_pattern
    cases is_pattern
  · rintro rfl
    rfl

/-- The leaves below the context are listed, or those whose paths a pattern covers if there are
patterns. -/
theorem mem_paths_iff {request : ListRequest} {path : String} :
    path ∈ (list tree resolver request).paths ↔
      ∃ branch trail held,
        tree.at? resolver (resolver.resolve request.context).raw = some branch ∧
          (trail, held) ∈ branch.leafTrails ∧
          (patternsOf request.wanted = [] ∨
            ∃ pattern ∈ patternsOf request.wanted, pattern.covers (Path.dotted trail) = true) ∧
          path = ((resolver.resolve request.context).join (Path.dotted trail)).text := by
  rw [list]
  cases context_eq : tree.at? resolver (resolver.resolve request.context).raw with
  | none => simp
  | some branch =>
      simp only [← List.any_eq_true, ← List.isEmpty_iff, ← Bool.or_eq_true]
      constructor
      · intro member
        obtain ⟨_, found_mem, rfl⟩ := List.mem_map.1 member
        obtain ⟨in_leaves, selected⟩ := List.mem_filter.1 found_mem
        obtain ⟨⟨_, _⟩, leaf_mem, rfl⟩ := List.mem_map.1 in_leaves
        obtain ⟨⟨trail, held⟩, in_trails, same⟩ := List.mem_map.1 leaf_mem
        cases same
        exact ⟨branch, trail, held, rfl, in_trails, selected, rfl⟩
      · rintro ⟨_, trail, held, same, in_trails, selected, rfl⟩
        cases same
        refine List.mem_map_of_mem (List.mem_filter.2 ⟨?_, selected⟩)
        exact List.mem_map.2 ⟨_, List.mem_map_of_mem in_trails, rfl⟩

end Query

end VesselHub
