/-
Module: VesselHub.Proofs.Query.Listing
Purpose: What a request for paths is answered with: the leaves below its context that one of its
  texts covers, each once and depth first. If none of its texts is a pattern it gets all leaves.
Main exports: Tree.Precedes, Tree.pairwise_leafTrails, Tree.Enumerates, Query.Names,
  Query.list_names, Model.list_exact_iff
-/
import VesselHub.Proofs.Query.Selection

namespace VesselHub

/-! ### Depth-first order -/

namespace Tree

/-- The keys right below a branch in their order; those of an array are its positions. -/
def kidKeys : Tree → List String
  | .leaf _ => []
  | .object children => Entries.keys children
  | .array items => (List.range' 0 items.length).map Path.positionKey

/-- Of two leaves, the one under the earlier of two keys comes first; under one key the order is
that of the branch there. -/
def Precedes (tree : Tree) : List String → List String → Prop
  | key :: trail, other :: more =>
      [key, other].Sublist tree.kidKeys ∨
        key = other ∧ ∃ kid, tree.HasKid key kid ∧ kid.Precedes trail more
  | _, _ => False

variable {tree kid : Tree} {key : String}

/-- The leaves below a key are in the order of the branch there, and come before those below later
keys. -/
theorem pairwise_before (has_kid : tree.HasKid key kid)
    (ordered : (kid.leafTrails.map Prod.fst).Pairwise kid.Precedes)
    {others : List (List String × Leaf)}
    (others_ordered : (others.map Prod.fst).Pairwise tree.Precedes)
    (later : ∀ trail held, (trail, held) ∈ others →
      ∃ other more, trail = other :: more ∧ [key, other].Sublist tree.kidKeys) :
    (((kid.leafTrails.map fun found => (key :: found.1, found.2)) ++ others).map
      Prod.fst).Pairwise tree.Precedes := by
  rw [List.map_append, List.pairwise_append]
  refine ⟨?_, others_ordered, ?_⟩
  · rw [List.map_map]
    rw [List.pairwise_map] at ordered ⊢
    exact ordered.imp fun before => .inr ⟨rfl, kid, has_kid, before⟩
  · intro trail in_first more in_others
    obtain ⟨_, found_mem, rfl⟩ := List.mem_map.1 in_first
    obtain ⟨_, _, rfl⟩ := List.mem_map.1 found_mem
    obtain ⟨⟨_, held⟩, other_mem, rfl⟩ := List.mem_map.1 in_others
    obtain ⟨other, rest, rfl, is_later⟩ := later _ held other_mem
    exact .inl is_later

mutual

/-- The leaves of a tree are listed depth first, in the order of the keys. -/
theorem pairwise_leafTrails : ∀ tree : Tree,
    (tree.leafTrails.map Prod.fst).Pairwise tree.Precedes
  | .leaf _ => List.pairwise_singleton _ _
  | .object children => pairwise_childTrails children (List.Sublist.refl _) fun _ _ member => member
  | .array items => pairwise_itemTrails items 0 (List.Sublist.refl _)
      fun position _ item_eq => ⟨position, item_eq, by rw [Nat.zero_add]⟩

theorem pairwise_childTrails {tree : Tree} : ∀ children : List (String × Tree),
    (Entries.keys children).Sublist tree.kidKeys →
    (∀ key kid, (key, kid) ∈ children → tree.HasKid key kid) →
      ((childTrails children).map Prod.fst).Pairwise tree.Precedes
  | [], _, _ => .nil
  | (key, child) :: children, listed, kids => by
      rw [Entries.keys_cons] at listed
      refine pairwise_before (kids key child List.mem_cons_self) (pairwise_leafTrails child)
        (pairwise_childTrails children (List.sublist_of_cons_sublist listed)
          fun other kid member => kids other kid (List.mem_cons_of_mem _ member)) ?_
      intro trail held member
      obtain ⟨other, kid, more, kid_mem, trail_eq, -⟩ := mem_childTrails.1 member
      have is_key : other ∈ Entries.keys children := List.mem_map.2 ⟨_, kid_mem, rfl⟩
      exact ⟨other, more, trail_eq,
        ((List.singleton_sublist.2 is_key).cons_cons key).trans listed⟩

theorem pairwise_itemTrails {tree : Tree} : ∀ (items : List Tree) (start : Nat),
    ((List.range' start items.length).map Path.positionKey).Sublist tree.kidKeys →
    (∀ offset kid, items[offset]? = some kid →
      tree.HasKid (Path.positionKey (start + offset)) kid) →
      ((itemTrails start items).map Prod.fst).Pairwise tree.Precedes
  | [], _, _, _ => .nil
  | item :: items, start, listed, kids => by
      rw [List.length_cons, List.range'_succ, List.map_cons] at listed
      refine pairwise_before (kids 0 item rfl) (pairwise_leafTrails item)
        (pairwise_itemTrails items (start + 1) (List.sublist_of_cons_sublist listed)
          fun offset kid kid_eq => ?_) ?_
      · rw [Nat.add_assoc, Nat.add_comm 1]
        exact kids (offset + 1) kid kid_eq
      · intro trail held member
        obtain ⟨offset, kid, more, kid_eq, trail_eq, -⟩ := mem_itemTrails.1 member
        have in_range : offset < items.length := (List.getElem?_eq_some_iff.1 kid_eq).1
        have is_key : Path.positionKey (start + 1 + offset) ∈
            (List.range' (start + 1) items.length).map Path.positionKey :=
          List.mem_map_of_mem (List.mem_range'_1.2 ⟨by omega, by omega⟩)
        exact ⟨_, more, trail_eq, ((List.singleton_sublist.2 is_key).cons_cons _).trans listed⟩

end

/-- The leaves of a branch whose keys are selected, each once and depth first. -/
structure Enumerates (branch : Tree) (selected : List String → Prop)
    (trails : List (List String)) : Prop where
  ordered : trails.Pairwise branch.Precedes
  once : trails.Nodup
  mem_iff : ∀ trail, trail ∈ trails ↔
    (∃ held, branch.StandsAt trail (.leaf held)) ∧ selected trail

/-- Leaving out the leaves that are not selected keeps the order of the others. -/
theorem enumerates_filter {branch : Tree} (distinct : branch.DistinctKeys)
    {selected : List String → Prop} {selects : List String → Bool}
    (selects_iff : ∀ trail, selects trail = true ↔ selected trail) :
    branch.Enumerates selected ((branch.leafTrails.map Prod.fst).filter selects) where
  ordered := (pairwise_leafTrails branch).filter selects
  once := (nodup_leafTrails distinct).filter selects
  mem_iff trail := by
    rw [List.mem_filter, selects_iff]
    refine and_congr_left fun _ => ?_
    simp only [← mem_leafTrails_iff, List.mem_map, Prod.exists, exists_and_right,
      exists_eq_right]

end Tree

/-! ### Answers -/

namespace Query

/-- Paths name the leaves of the branch at a context whose keys below it are selected: each by its
full path, each once, and depth first. -/
def Names (context : Path) (branch : Tree) (selected : List String → Prop)
    (paths : List String) : Prop :=
  paths.Nodup ∧ ∃ trails, branch.Enumerates selected trails ∧
    paths = trails.map fun trail => Path.dotted (context.segments ++ trail)

/-- A text of a request for paths that is a pattern. -/
def IsPattern (text : String) : Prop :=
  ∃ pattern, Pattern.ofText text = .ok pattern

variable {context : Path} {tree branch : Tree} {resolver : Resolver} {wanted paths : List String}
  {selected other : List String → Prop}

theorem Lists.isPattern {text path : String} (lists : Lists text path) : IsPattern text :=
  lists.imp fun _ => And.left

/-- What is selected matters for leaves only. -/
theorem Names.congr (names : Names context branch selected paths)
    (same : ∀ trail held, branch.StandsAt trail (.leaf held) → (selected trail ↔ other trail)) :
    Names context branch other paths := by
  obtain ⟨nodup, trails, enumerates, paths_eq⟩ := names
  refine ⟨nodup, trails, { enumerates with mem_iff := fun trail => ?_ }, paths_eq⟩
  rw [enumerates.mem_iff]
  exact and_congr_right fun ⟨held, stands⟩ => same trail held stands

/-- The keys of a full path are plain. -/
theorem plain_of_standsAt (context_plain : ∀ key ∈ context.segments, Path.IsPlain key)
    (branch_plain : branch.PlainKeys) {trail : List String}
    (stands : ∃ held, branch.StandsAt trail (.leaf held)) :
    ∀ key ∈ context.segments ++ trail, Path.IsPlain key := by
  obtain ⟨held, leaf_stands⟩ := stands
  intro key member
  rcases List.mem_append.1 member with above | below
  · exact context_plain key above
  · have leaf := Tree.mem_leafTrails_iff.2 leaf_stands
    exact Tree.plain_of_mem_leafTrails branch_plain leaf key below

/-- A leaf is named by its full path if it is selected. -/
theorem Names.mem_iff (names : Names context branch selected paths)
    (context_plain : ∀ key ∈ context.segments, Path.IsPlain key)
    (branch_plain : branch.PlainKeys) {trail : List String}
    (stands : ∃ held, branch.StandsAt trail (.leaf held)) :
    Path.dotted (context.segments ++ trail) ∈ paths ↔ selected trail := by
  obtain ⟨-, trails, enumerates, rfl⟩ := names
  constructor
  · intro member
    obtain ⟨more, more_mem, same⟩ := List.mem_map.1 member
    obtain ⟨more_stands, selected_more⟩ := (enumerates.mem_iff more).1 more_mem
    have same_keys := Path.dotted_injective
      (plain_of_standsAt context_plain branch_plain more_stands)
      (plain_of_standsAt context_plain branch_plain stands) same
    rwa [List.append_cancel_left same_keys] at selected_more
  · exact fun selected_trail =>
      List.mem_map.2 ⟨trail, (enumerates.mem_iff trail).2 ⟨stands, selected_trail⟩, rfl⟩

/-- The branch that a request is about. Below a context that is not there is nothing. -/
def branchAt (tree : Tree) (resolver : Resolver) (context : String) : Tree :=
  (tree.at? resolver context).getD .empty

/-- Whether the texts of a request for paths select the leaf that some keys lead to. -/
def selects (wanted trail : List String) : Bool :=
  (patternsOf wanted).isEmpty || (patternsOf wanted).any (·.covers (Path.dotted trail))

/-- A leaf is selected by a text that covers it, and each leaf if no text is a pattern. -/
theorem selects_iff (wanted trail : List String) : selects wanted trail = true ↔
    (∀ text ∈ wanted, ¬ IsPattern text) ∨ ∃ text ∈ wanted, Lists text (Path.dotted trail) := by
  rw [selects, Bool.or_eq_true, List.isEmpty_iff, List.any_eq_true,
    List.eq_nil_iff_forall_not_mem]
  simp only [mem_patternsOf_iff]
  refine or_congr ⟨?_, ?_⟩ ⟨?_, ?_⟩
  · rintro none_left text text_mem ⟨pattern, parsed⟩
    exact none_left pattern ⟨text, text_mem, parsed⟩
  · rintro no_pattern pattern ⟨text, text_mem, parsed⟩
    exact no_pattern text text_mem ⟨pattern, parsed⟩
  · rintro ⟨pattern, ⟨text, text_mem, parsed⟩, covers⟩
    exact ⟨text, text_mem, pattern, parsed, covers⟩
  · rintro ⟨text, text_mem, pattern, parsed, covers⟩
    exact ⟨pattern, ⟨text, text_mem, parsed⟩, covers⟩

/-- The keys of a branch of a canonical tree are distinct and plain. -/
theorem keys_branchAt (canonical : tree.Canonical) (resolver : Resolver) (context : String) :
    (branchAt tree resolver context).DistinctKeys ∧
      (branchAt tree resolver context).PlainKeys := by
  rw [branchAt]
  cases at_eq : tree.at? resolver context with
  | none =>
      exact ⟨⟨List.nodup_nil, trivial⟩, ⟨fun _ nothing => absurd nothing List.not_mem_nil, trivial⟩⟩
  | some branch =>
      exact ⟨Tree.EveryObject.walk? canonical.distinct at_eq,
        Tree.EveryObject.walk? canonical.plain at_eq⟩

/-- The paths of an answer in terms of the keys that lead to leaves. -/
theorem paths_list (canonical : tree.Canonical) (valid : resolver.IsValid)
    (request : ListRequest) : (list tree resolver request).paths =
    (((branchAt tree resolver request.context).leafTrails.map Prod.fst).filter
      (selects request.wanted)).map fun trail =>
        Path.dotted ((resolver.resolve request.context).segments ++ trail) := by
  have resolved := Resolver.isResolved_resolve valid request.context
  have plain := (keys_branchAt canonical resolver request.context).2
  have at_eq : tree.at? resolver (resolver.resolve request.context).raw =
      tree.at? resolver request.context := by
    rw [Tree.at?, Tree.at?, Resolver.resolve_raw resolved]
  have joined : (list tree resolver request).paths =
      (((branchAt tree resolver request.context).leafTrails.map Prod.fst).filter
        (selects request.wanted)).map fun trail =>
          ((resolver.resolve request.context).join (Path.dotted trail)).text := by
    rw [list, branchAt, at_eq]
    cases tree.at? resolver request.context with
    | none => rfl
    | some branch =>
        simp only [Option.getD_some, Tree.leaves, List.map_map, List.filter_map]
        rfl
  rw [joined]
  refine List.map_congr_left fun trail member => ?_
  obtain ⟨⟨_, held⟩, leaf, rfl⟩ := List.mem_map.1 (List.mem_filter.1 member).1
  rw [Path.text, Path.segments_join_dotted resolved.plain (Tree.plain_of_mem_leafTrails plain leaf)]

/-- A request for paths is answered with the leaves that one of its texts covers, or with all if
none of its texts is a pattern. -/
theorem list_names (canonical : tree.Canonical) (valid : resolver.IsValid)
    (request : ListRequest) :
    Names (resolver.resolve request.context) (branchAt tree resolver request.context)
      (fun trail => (∀ text ∈ request.wanted, ¬ IsPattern text) ∨
        ∃ text ∈ request.wanted, Lists text (Path.dotted trail))
      (list tree resolver request).paths := by
  have resolved := Resolver.isResolved_resolve valid request.context
  obtain ⟨distinct, plain⟩ := keys_branchAt canonical resolver request.context
  have enumerates := Tree.enumerates_filter distinct (selects_iff request.wanted)
  rw [paths_list canonical valid]
  refine ⟨enumerates.once.map_on fun trail member more more_mem same => ?_, _, enumerates, rfl⟩
  exact List.append_cancel_left (Path.dotted_injective
    (plain_of_standsAt resolved.plain plain ((enumerates.mem_iff trail).1 member).1)
    (plain_of_standsAt resolved.plain plain ((enumerates.mem_iff more).1 more_mem).1) same)

end Query

namespace Model

/-- What a model answers with is read off from its copy without private branches. -/
theorem list_names {model : Model} (canonical : model.IsCanonical) (context : String)
    (wanted : List String) :
    Query.Names (model.resolver.resolve context)
      (Query.branchAt model.safe.tree model.resolver context)
      (fun trail => (∀ text ∈ wanted, ¬ Query.IsPattern text) ∨
        ∃ text ∈ wanted, Query.Lists text (Path.dotted trail))
      (model.list ⟨context, wanted⟩).paths := by
  rw [canonical.tree_safe]
  exact Query.list_names canonical.tree.safe canonical.valid ⟨context, wanted⟩

/-- A request for paths names the leaves below its context, but for private ones, that one of its
texts covers, or all of them if none of its texts is a pattern. So it names just those that a text
covers if a text is a pattern, or if there is no leaf. -/
theorem list_exact_iff {model : Model} (canonical : model.IsCanonical) (context : String)
    (wanted : List String) :
    let branch := Query.branchAt model.safe.tree model.resolver context
    let names := fun selected => Query.Names (model.resolver.resolve context) branch selected
      (model.list ⟨context, wanted⟩).paths
    names (fun trail => (∀ text ∈ wanted, ¬ Query.IsPattern text) ∨
        ∃ text ∈ wanted, Query.Lists text (Path.dotted trail)) ∧
      (names (fun trail => ∃ text ∈ wanted, Query.Lists text (Path.dotted trail)) ↔
        (∃ text ∈ wanted, Query.IsPattern text) ∨
          ∀ trail held, ¬ branch.StandsAt trail (.leaf held)) := by
  intro branch names
  have listed := list_names canonical context wanted
  refine ⟨listed, fun exactly => ?_, fun known => ?_⟩
  · by_contra unknown
    rw [not_or] at unknown
    obtain ⟨no_pattern, some_leaf⟩ := unknown
    refine some_leaf fun trail held stands => no_pattern ?_
    -- The leaf is listed, so a text covers it.
    have resolved := Resolver.isResolved_resolve canonical.valid context
    have plain : branch.PlainKeys :=
      (Query.keys_branchAt canonical.safe.tree model.resolver context).2
    have named := (listed.mem_iff resolved.plain plain ⟨held, stands⟩).2
      (.inl fun text text_mem is_pattern => no_pattern ⟨text, text_mem, is_pattern⟩)
    obtain ⟨text, text_mem, lists⟩ :=
      (exactly.mem_iff resolved.plain plain ⟨held, stands⟩).1 named
    exact ⟨text, text_mem, lists.isPattern⟩
  · refine listed.congr fun trail held stands => or_iff_right fun no_pattern => ?_
    rcases known with ⟨text, text_mem, is_pattern⟩ | no_leaf
    · exact no_pattern text text_mem is_pattern
    · exact no_leaf trail held stands

/-- A text that is no pattern does not widen a request that has a pattern. -/
theorem windObserved_listed :
    let model := run "gull" windObserved
    let wanted := ["environment..wind", "environment.*"]
    model.IsCanonical ∧ (model.list ⟨"vessels.self", wanted⟩).paths =
        ["vessels.gull.environment.wind.speed"] ∧
      Query.Names (model.resolver.resolve "vessels.self")
        (Query.branchAt model.safe.tree model.resolver "vessels.self")
        (fun trail => ∃ text ∈ wanted, Query.Lists text (Path.dotted trail))
        (model.list ⟨"vessels.self", wanted⟩).paths := by
  intro model wanted
  refine ⟨isCanonical_windObserved, by decide +kernel, ?_⟩
  exact (list_exact_iff isCanonical_windObserved "vessels.self" wanted).2.2
    (.inl ⟨"environment.*", List.mem_cons_of_mem _ List.mem_cons_self, _, rfl⟩)

/-- A request for paths whose only text is no pattern gets leaves that no text covers. -/
theorem wind_listed_unasked :
    ¬ ∀ model : Model, model.IsCanonical → ∀ (context : String) (wanted : List String),
      wanted ≠ [] → Query.Names (model.resolver.resolve context)
        (Query.branchAt model.safe.tree model.resolver context)
        (fun trail => ∃ text ∈ wanted, Query.Lists text (Path.dotted trail))
        (model.list ⟨context, wanted⟩).paths := by
  intro always
  obtain ⟨-, trails, enumerates, paths_eq⟩ := always (run "gull" windObserved)
    isCanonical_windObserved "vessels.self" ["a..b"] (List.cons_ne_nil _ _)
  have listed : ((run "gull" windObserved).list ⟨"vessels.self", ["a..b"]⟩).paths =
      ["vessels.gull.environment.wind.speed"] := by decide +kernel
  rw [listed] at paths_eq
  obtain ⟨trail, trail_mem, -⟩ := List.mem_map.1
    (paths_eq ▸ List.mem_singleton_self "vessels.gull.environment.wind.speed")
  obtain ⟨text, text_mem, _, parsed, -⟩ := ((enumerates.mem_iff trail).1 trail_mem).2
  rw [List.mem_singleton.1 text_mem] at parsed
  cases parsed

end Model

end VesselHub
