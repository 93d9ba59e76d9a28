/-
Module: VesselHub.Proofs.Payload.Covered
Purpose: Which leaves a subscription covers, and that their full paths tell them apart.
Main exports: Payload.mem_covered, Payload.full_segments, Payload.full_text_join,
  Payload.covered_unique
-/
import VesselHub.Payload.Covered
import VesselHub.Proofs.Tree.Keys

namespace VesselHub

/-- Trees as the hub holds them: dotted paths can name every key, and nothing repeats a key. -/
structure Tree.Proper (tree : Tree) : Prop where
  distinct : tree.DistinctKeys
  plain : tree.PlainKeys
  values : ∀ found ∈ tree.leafTrails, found.2.value.HasDistinctKeys

namespace Payload

variable {tree : Tree} {resolver : Resolver} {context : String} {filter : Pattern}

/-- A covered leaf is a leaf below one of the contexts. -/
theorem mem_covered {found : CoveredLeaf} :
    found ∈ covered tree resolver context filter ↔
      found.context ∈ contexts tree resolver context ∧
        ∃ branch trail, tree.at? resolver found.context.raw = some branch ∧
          (trail, found.leaf) ∈ branch.leafTrails ∧ found.relative = Path.dotted trail ∧
          filter.covers found.relative := by
  rw [covered, List.mem_flatMap]
  constructor
  · rintro ⟨path, is_context, member⟩
    cases branch_eq : tree.at? resolver path.raw with
    | none => simp [branch_eq] at member
    | some branch =>
        simp only [branch_eq, List.mem_map, List.mem_filter] at member
        obtain ⟨⟨relative, leaf⟩, ⟨in_leaves, is_covered⟩, rfl⟩ := member
        obtain ⟨⟨trail, held⟩, in_trails, same⟩ := List.mem_map.1 in_leaves
        cases same
        exact ⟨is_context, branch, trail, branch_eq, in_trails, rfl, is_covered⟩
  · rintro ⟨is_context, branch, trail, branch_eq, in_trails, relative_eq, is_covered⟩
    refine ⟨found.context, is_context, ?_⟩
    simp only [branch_eq, List.mem_map, List.mem_filter]
    refine ⟨(found.relative, found.leaf), ⟨?_, is_covered⟩, rfl⟩
    exact List.mem_map.2 ⟨(trail, found.leaf), in_trails, by rw [relative_eq]⟩

/-- The keys of a covered leaf's full path: those of its context, then those below it. -/
theorem full_segments {found : CoveredLeaf} {trail : List String}
    (plain : ∀ key ∈ trail, Path.IsPlain key) (relative_eq : found.relative = Path.dotted trail) :
    found.full.segments = found.context.segments.flatMap Path.segmentsOf ++ trail := by
  rw [CoveredLeaf.full, Path.join, Path.ofParts, relative_eq,
    Path.segmentsOf_dotted_of_plain plain, List.flatMap_append, Path.flatMap_segmentsOf plain]

theorem plain_full_segments (found : CoveredLeaf) :
    ∀ key ∈ found.full.segments, Path.IsPlain key :=
  Path.plain_ofParts _

theorem full_segments_of_text {one other : CoveredLeaf} (same : one.full.text = other.full.text) :
    one.full.segments = other.full.segments :=
  Path.dotted_injective (plain_full_segments one) (plain_full_segments other) same

/-- The texts of a context and of a path below it give the full path. -/
theorem full_text_join (found : CoveredLeaf) :
    ((Path.ofText found.context.text).join found.relative).text = found.full.text := by
  have cut : (Path.segmentsOf found.context.text).flatMap Path.segmentsOf =
      found.context.segments.flatMap Path.segmentsOf := by
    rw [Path.text, Path.segmentsOf_dotted]
    exact Path.flatMap_segmentsOf (Path.plain_ofParts found.context.segments)
  simp only [CoveredLeaf.full, Path.join, Path.ofParts, Path.ofText, Path.text,
    List.flatMap_append] at cut ⊢
  rw [cut]

/-- A context is the one that is named or, with a wildcard, a vessel. -/
theorem mem_contexts {path : Path} (member : path ∈ contexts tree resolver context) :
    ('*' ∉ context.toList ∧ path = resolver.resolve context) ∨
      '*' ∈ context.toList ∧ ∃ vessels key, tree.at? resolver vesselsKey = some vessels ∧
        key ∈ childKeys vessels ∧ path = Path.ofParts [vesselsKey, key] := by
  by_cases is_wild : '*' ∈ context.toList
  · refine Or.inr ⟨is_wild, ?_⟩
    simp only [contexts, is_wild, not_true_eq_false, if_false] at member
    split at member
    · rename_i pattern vessels _ vessels_eq
      obtain ⟨key, key_mem, rfl⟩ := List.mem_map.1 (List.mem_filter.1 member).1
      exact ⟨vessels, key, vessels_eq, key_mem, rfl⟩
    · cases member
  · simp only [contexts, is_wild, not_false_eq_true, if_true, List.mem_singleton] at member
    exact Or.inl ⟨is_wild, member⟩

theorem plain_childKeys {branch : Tree} (plain : branch.PlainKeys) :
    ∀ key ∈ childKeys branch, Path.IsPlain key := by
  intro key member
  cases branch with
  | leaf held => cases member
  | array items => cases member
  | object children => exact plain.1 key member

/-- The keys of a vessel's context. -/
theorem vessel_segments {key : String} (plain : Path.IsPlain key) :
    (Path.ofParts [vesselsKey, key]).segments = [vesselsKey, key] := by
  apply Path.flatMap_segmentsOf
  intro part is_part
  simp only [List.mem_cons, List.not_mem_nil, or_false] at is_part
  rcases is_part with rfl | rfl
  · exact ⟨by decide, by decide⟩
  · exact plain

/-- The contexts of a tree lead to different places. -/
theorem contexts_unique (plain : tree.PlainKeys) {one other : Path}
    (has_one : one ∈ contexts tree resolver context)
    (has_other : other ∈ contexts tree resolver context) {trail more : List String}
    (same : one.segments.flatMap Path.segmentsOf ++ trail =
      other.segments.flatMap Path.segmentsOf ++ more) : one = other ∧ trail = more := by
  rcases mem_contexts has_one with ⟨is_single, rfl⟩ | ⟨is_wild, vessels, key, found, key_mem, rfl⟩
  · rcases mem_contexts has_other with ⟨_, rfl⟩ | ⟨is_wild, _⟩
    · exact ⟨rfl, List.append_cancel_left same⟩
    · exact absurd is_wild is_single
  · rcases mem_contexts has_other with
      ⟨is_single, _⟩ | ⟨_, others, next, other_found, next_mem, rfl⟩
    · exact absurd is_wild is_single
    · rw [found, Option.some.injEq] at other_found
      subst other_found
      have vessels_plain : vessels.PlainKeys := Tree.EveryObject.walk? plain found
      have flat : ∀ key ∈ childKeys vessels,
          (Path.ofParts [vesselsKey, key]).segments.flatMap Path.segmentsOf =
            [vesselsKey, key] := by
        intro key member
        have key_plain := plain_childKeys vessels_plain key member
        rw [vessel_segments key_plain]
        exact vessel_segments key_plain
      rw [flat key key_mem, flat next next_mem] at same
      simp only [List.cons_append, List.nil_append, List.cons.injEq, true_and] at same
      exact ⟨by rw [same.1], same.2⟩

/-- The full path of a covered leaf determines it. -/
theorem covered_unique (proper : tree.Proper) {one other : CoveredLeaf}
    (has_one : one ∈ covered tree resolver context filter)
    (has_other : other ∈ covered tree resolver context filter)
    (same : one.full.text = other.full.text) : one.leaf = other.leaf := by
  obtain ⟨one_context, branch, trail, branch_eq, in_trails, one_relative, _⟩ :=
    mem_covered.1 has_one
  obtain ⟨other_context, other_branch, more, other_eq, in_others, other_relative, _⟩ :=
    mem_covered.1 has_other
  have trail_plain := Tree.plain_of_mem_leafTrails (Tree.EveryObject.walk? proper.plain branch_eq)
    in_trails
  have more_plain := Tree.plain_of_mem_leafTrails (Tree.EveryObject.walk? proper.plain other_eq)
    in_others
  have segments := full_segments_of_text same
  rw [full_segments trail_plain one_relative, full_segments more_plain other_relative] at segments
  obtain ⟨same_context, rfl⟩ := contexts_unique proper.plain one_context other_context segments
  rw [same_context, other_eq, Option.some.injEq] at branch_eq
  subst branch_eq
  exact Tree.leaf_unique (Tree.EveryObject.walk? proper.distinct other_eq) in_trails in_others

/-- The values of covered leaves repeat no keys. -/
theorem distinct_value (proper : tree.Proper) {found : CoveredLeaf}
    (member : found ∈ covered tree resolver context filter) :
    found.leaf.value.HasDistinctKeys := by
  obtain ⟨_, branch, trail, branch_eq, in_trails, _, _⟩ := mem_covered.1 member
  obtain ⟨above, in_tree⟩ := Tree.exists_leafTrails_of_walk? branch_eq in_trails
  exact proper.values _ in_tree

end Payload

end VesselHub
