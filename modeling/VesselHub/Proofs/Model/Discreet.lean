/-
Module: VesselHub.Proofs.Model.Discreet
Purpose: When the answers of the hub name nothing private. Private branches are left out by their
  stored keys and answers name what is left by dotted paths, so it comes down to what the stored
  keys spell.
Main exports: Tree.IsPublic, Tree.Discreet, Model.NamesNothingPrivate,
  Model.namesNothingPrivate_iff
-/
import VesselHub.Proofs.Json.Reach
import VesselHub.Proofs.Model.Alias
import VesselHub.Proofs.Model.Named
import VesselHub.Proofs.Payload.Tracker
import VesselHub.Proofs.Query.Places

namespace VesselHub

namespace Tree

/-- No key of the tree spells a private one. -/
abbrev IsPublic (tree : Tree) : Prop :=
  tree.KeysHave fun key => Path.spellsPrivate key = false

/-- Some leaf of the tree stands at keys that spell a private one. -/
def HasPrivateLeaf (tree : Tree) : Prop :=
  ∃ found ∈ tree.leafTrails, found.1.any Path.spellsPrivate = true

/-- A location in an answer spells where a leaf of the tree is: a path that leads to a branch, and
the keys below it. -/
def LiesAt (tree : Tree) (resolver : Resolver) (location : List String) (held : Leaf) : Prop :=
  ∃ path branch trail, tree.at? resolver path = some branch ∧
    branch.StandsAt trail (.leaf held) ∧
      Path.ofParts location = (Path.ofText path).join (Path.dotted trail)

/-- A location in an answer is inside the value of a leaf. -/
def InLeaf (tree : Tree) (resolver : Resolver) (location : List String) : Prop :=
  ∃ above held below, location = above ++ "value" :: below ∧ tree.LiesAt resolver above held ∧
    held.value.Reaches below

/-- No location of an answer is private, other than inside the values of leaves. Where the tree
has a branch of its own is never such a place. -/
def Discreet (tree : Tree) (resolver : Resolver) (answer : Json) : Prop :=
  ∀ location, answer.Reaches location → (Path.ofParts location).isPrivate = true →
    tree.InLeaf resolver location ∧ ∀ branch, ¬ tree.StandsAt location branch

variable {tree branch : Tree} {resolver : Resolver}

/-! ### Public trees -/

theorem IsPublic.standsAt (is_public : tree.IsPublic) {keys : List String}
    (stands : tree.StandsAt keys branch) : keys.any Path.spellsPrivate = false := by
  rw [List.any_eq_false]
  intro key member
  rw [forall_mem_of_standsAt is_public Path.spellsPrivate_positionKey stands key member]
  exact Bool.false_ne_true

theorem IsPublic.not_hasPrivateLeaf (is_public : tree.IsPublic) : ¬ tree.HasPrivateLeaf := by
  rintro ⟨⟨trail, held⟩, in_trails, secret⟩
  rw [is_public.standsAt (mem_leafTrails_iff.1 in_trails)] at secret
  cases secret

mutual

/-- Without its private branches a tree is public, unless a key that is not private spells one
that is. -/
theorem isPublic_safe : ∀ {tree : Tree}, tree.KeysHave Path.HidesWhole → tree.safe.IsPublic
  | .leaf _, _ => trivial
  | .object _, named => keysHave_object.2 (isPublic_safeChildren (keysHave_object.1 named))
  | .array _, named => (everyItem_iff _).2 (isPublic_safeItems ((everyItem_iff _).1 named))

theorem isPublic_safeChildren : ∀ {children : List (String × Tree)},
    (∀ entry ∈ children, Path.HidesWhole entry.1 ∧ entry.2.KeysHave Path.HidesWhole) →
      ∀ entry ∈ safeChildren children, Path.spellsPrivate entry.1 = false ∧ entry.2.IsPublic
  | [], _ => nofun
  | (key, child) :: children, all => by
      rw [List.forall_mem_cons] at all
      rw [safeChildren]
      split
      · exact isPublic_safeChildren all.2
      · rename_i shown
        rw [List.forall_mem_cons]
        have open_key : Path.spellsPrivate key = false :=
          Bool.eq_false_iff.2 fun secret => shown (all.1.1 secret)
        exact ⟨⟨open_key, isPublic_safe all.1.2⟩, isPublic_safeChildren all.2⟩

theorem isPublic_safeItems : ∀ {items : List Tree},
    (∀ item ∈ items, item.KeysHave Path.HidesWhole) →
      ∀ item ∈ safeItems items, item.IsPublic
  | [], _ => nofun
  | item :: items, all => by
      rw [List.forall_mem_cons] at all
      rw [safeItems, List.forall_mem_cons]
      exact ⟨isPublic_safe all.1, isPublic_safeItems all.2⟩

end

/-- Keys that lead to a branch spell nothing private, unless the keys that it stands at do. -/
theorem exists_standsAt_of_walk? {keys : List String} (found : tree.walk? keys = some branch) :
    ∃ names, tree.StandsAt names branch ∧
      (keys.any Path.spellsPrivate = true → names.any Path.spellsPrivate = true) := by
  induction keys generalizing tree with
  | nil =>
      cases found
      exact ⟨[], rfl, id⟩
  | cons key keys induction_step =>
      obtain ⟨child, child_eq, rest⟩ := Option.bind_eq_some_iff.1 found
      obtain ⟨names, stands, secret⟩ := induction_step rest
      cases tree with
      | leaf held => cases child_eq
      | object children =>
          refine ⟨key :: names, ⟨child, Entries.mem_of_get? child_eq, stands⟩, ?_⟩
          rw [List.any_cons, List.any_cons, Bool.or_eq_true, Bool.or_eq_true]
          exact Or.imp id secret
      | array items =>
          obtain ⟨position, named, item_eq⟩ := Option.bind_eq_some_iff.1 child_eq
          have has_kid : (array items).HasKid (Path.positionKey position) child :=
            ⟨position, item_eq, rfl⟩
          refine ⟨Path.positionKey position :: names, ⟨child, has_kid, stands⟩, ?_⟩
          rw [List.any_cons, List.any_cons, Path.spellsPrivate_of_position? named,
            Path.spellsPrivate_positionKey, Bool.false_or, Bool.false_or]
          exact secret

/-- A private path that leads to a branch leads along private keys of the tree. -/
theorem exists_standsAt_of_at? {path : String} (found : tree.at? resolver path = some branch) :
    ∃ names, tree.StandsAt names branch ∧
      (Path.spellsPrivate path = true → names.any Path.spellsPrivate = true) := by
  obtain ⟨names, stands, secret⟩ := exists_standsAt_of_walk? found
  exact ⟨names, stands, fun spelled => secret (resolver.any_spellsPrivate_resolve spelled)⟩

/-- A path below a branch is private only if a leaf that it names stands at private keys. -/
theorem hasPrivateLeaf_of_join {path : Path} (spelled : path.IsSpelled)
    (found : tree.at? resolver path.raw = some branch) {trail : List String} {held : Leaf}
    (member : (trail, held) ∈ branch.leafTrails)
    (secret : (path.join (Path.dotted trail)).isPrivate = true) : tree.HasPrivateLeaf := by
  obtain ⟨names, stands, named⟩ := exists_standsAt_of_at? found
  refine ⟨(names ++ trail, held), ?_, ?_⟩
  · rw [mem_leafTrails_iff] at member ⊢
    exact standsAt_append.2 ⟨branch, stands, member⟩
  · rw [Path.isPrivate_join, Path.spellsPrivate_dotted, Bool.or_eq_true,
      ← spelled.spellsPrivate_raw] at secret
    rw [List.any_append, Bool.or_eq_true]
    exact secret.imp named id

/-! ### Documents -/

theorem discreet_nothing : tree.Discreet resolver (.object []) := by
  intro location reaches secret
  cases location with
  | nil => cases secret
  | cons key keys =>
      obtain ⟨_, nothing, _⟩ := reaches
      cases nothing

section Located

variable {upper lower : Tree} {text : String} {trail location : List String}

/-- Where a public tree has a branch, nothing private is spelled. -/
theorem IsPublic.any_location (is_public : tree.IsPublic)
    (found : tree.at? resolver text = some upper)
    (stands : upper.StandsAt trail lower)
    (located : Path.ofParts location = (Path.ofText text).join (Path.dotted trail)) :
    location.any Path.spellsPrivate = false := by
  obtain ⟨names, stands_upper, named⟩ := exists_standsAt_of_at? found
  have open_text : ¬ Path.spellsPrivate text = true := by
    intro secret
    exact Bool.eq_false_iff.1 (is_public.standsAt stands_upper) (named secret)
  have open_trail : trail.any Path.spellsPrivate = false :=
    IsPublic.standsAt (EveryObject.walk? is_public found) stands
  rw [← Path.isPrivate_ofParts, located, Path.isPrivate_join, Path.spellsPrivate_dotted,
    open_trail, Path.ofText, Path.any_segmentsOf, Bool.or_false]
  exact Bool.eq_false_iff.2 open_text

/-- What is private in the document of a public branch is inside the values of leaves. -/
theorem inLeaf_of_reaches_encode (is_public : lower.IsPublic)
    (found : tree.at? resolver text = some upper) (stands : upper.StandsAt trail lower)
    (located : Path.ofParts location = (Path.ofText text).join (Path.dotted trail))
    {rest : List String} (inside : lower.encode.Reaches rest)
    (secret : rest.any Path.spellsPrivate = true) : tree.InLeaf resolver (location ++ rest) := by
  rcases reaches_encode inside with
    ⟨branch, below⟩ | ⟨above, held, key, rest, below, rfl, in_form⟩
  · rw [is_public.standsAt below] at secret
    cases secret
  · rcases Leaf.reaches_encode in_form with ⟨rfl, in_value⟩ | ⟨time_or_source, rfl⟩
    · have lies : tree.LiesAt resolver (location ++ above) held := by
        have stands_leaf := standsAt_append.2 ⟨lower, stands, below⟩
        refine ⟨text, upper, trail ++ above, found, stands_leaf, ?_⟩
        rw [Path.ofParts_eq_join_iff] at located ⊢
        rw [List.flatMap_append, located, List.flatMap_append, List.append_assoc]
      exact ⟨location ++ above, held, rest, (List.append_assoc ..).symm, lies, in_value⟩
    · rw [List.any_append, is_public.standsAt below, Bool.false_or] at secret
      rcases time_or_source with rfl | rfl
      · exact absurd secret (by decide)
      · exact absurd secret (by decide)

/-- The document of a branch can be put where the tree has it. -/
theorem Discreet.insertAt (is_public : tree.IsPublic) (found : tree.at? resolver text = some upper)
    (stands : upper.StandsAt trail lower)
    (located : Path.ofParts location = (Path.ofText text).join (Path.dotted trail))
    {answer : Json} (discreet : tree.Discreet resolver answer) :
    tree.Discreet resolver (answer.insertAt location lower.encode) := by
  have open_location := is_public.any_location found stands located
  have lower_public : lower.IsPublic :=
    EveryObject.standsAt (EveryObject.walk? is_public found) stands
  intro keys reaches secret
  constructor
  · rcases Json.reaches_insertAt reaches with before | ⟨rest, rfl⟩ | ⟨rest, rfl, inside⟩
    · exact (discreet keys before secret).1
    · rw [List.any_append, Bool.or_eq_false_iff] at open_location
      rw [Path.isPrivate_ofParts, open_location.1] at secret
      cases secret
    · rw [Path.isPrivate_ofParts, List.any_append, open_location, Bool.false_or] at secret
      exact inLeaf_of_reaches_encode lower_public found stands located inside secret
  · intro branch here
    rw [Path.isPrivate_ofParts, is_public.standsAt here] at secret
    cases secret

end Located

/-- The document of a tree names all of its branches. -/
theorem isPublic_of_discreet (discreet : tree.Discreet resolver tree.encode) : tree.IsPublic := by
  rw [IsPublic, KeysHave, everyObject_iff_standsAt]
  intro keys children stands key member
  obtain ⟨⟨_, child⟩, entry_mem, rfl⟩ := List.mem_map.1 member
  have has_kid : (object children).HasKid _ child := entry_mem
  have here := standsAt_append.2 ⟨_, stands, has_kid.standsAt⟩
  rw [Bool.eq_false_iff]
  intro secret
  refine (discreet _ (encode_reaches here) ?_).2 child here
  rw [Path.isPrivate_ofParts, List.any_append, List.any_cons, secret, Bool.true_or, Bool.or_true]

end Tree

/-! ### Answers to requests -/

namespace Query

variable {tree : Tree} {resolver : Resolver}

/-- A leaf below a context, put at its full path. -/
theorem discreet_insertAt_leaf (is_public : tree.IsPublic) {context : Path}
    (spelled : context.IsSpelled) {branch : Tree}
    (found : tree.at? resolver context.raw = some branch) {relative : String} {held : Leaf}
    (member : (relative, held) ∈ branch.leaves) {answer : Json}
    (discreet : tree.Discreet resolver answer) :
    tree.Discreet resolver
      (answer.insertAt (context.join relative).segments held.encode) := by
  obtain ⟨⟨trail, _⟩, in_trails, same⟩ := List.mem_map.1 member
  cases same
  exact Tree.Discreet.insertAt is_public found (Tree.mem_leafTrails_iff.1 in_trails)
    (spelled.ofParts_join trail) discreet

theorem discreet_addMatching (is_public : tree.IsPublic) {context : Path}
    (spelled : context.IsSpelled) {branch : Tree}
    (found : tree.at? resolver context.raw = some branch) (wanted : String) {answer : Json}
    (discreet : tree.Discreet resolver answer) :
    tree.Discreet resolver (addMatching context branch wanted answer) := by
  rw [addMatching]
  cases Pattern.ofText wanted with
  | error cause => exact discreet
  | ok pattern =>
      refine List.foldlRecOn _ _ discreet ?_
      intro before before_discreet leaf member
      exact discreet_insertAt_leaf is_public spelled found (List.mem_filter.1 member).1
        before_discreet

theorem discreet_addBranch (is_public : tree.IsPublic) (context : Path) (wanted : String)
    {answer : Json} (discreet : tree.Discreet resolver answer) :
    tree.Discreet resolver (addBranch tree resolver context wanted answer) := by
  rw [addBranch]
  cases found : tree.at? resolver (context.join wanted).raw with
  | none => exact discreet
  | some branch =>
      refine .insertAt is_public found (Tree.standsAt_self branch) ?_ discreet
      have located := (show (context.join wanted).IsSpelled from
        Path.isSpelled_ofParts _).ofParts_append []
      rwa [List.append_nil] at located

theorem discreet_get (is_public : tree.IsPublic) (request : GetRequest) :
    tree.Discreet resolver (get tree resolver request) := by
  have spelled := resolver.isSpelled_resolve request.context
  rw [get]
  cases found : tree.at? resolver (resolver.resolve request.context).raw with
  | none => exact Tree.discreet_nothing
  | some branch =>
      dsimp only
      split
      · refine .insertAt is_public found (Tree.standsAt_self branch) ?_ Tree.discreet_nothing
        have located := spelled.ofParts_append []
        rwa [List.append_nil] at located
      · refine List.foldlRecOn request.wanted _ Tree.discreet_nothing ?_
        intro answer discreet wanted _
        split
        · exact discreet_addMatching is_public spelled found wanted discreet
        · exact discreet_addBranch is_public _ wanted discreet

/-- Everything there is was asked for. -/
theorem get_everything (tree : Tree) (resolver : Resolver) :
    get tree resolver ⟨"", []⟩ = tree.encode := rfl

/-- A private path is listed if and only if a leaf stands at keys that spell one. -/
theorem exists_private_listed_iff :
    (∃ request, ∃ path ∈ (list tree resolver request).paths,
      (Path.ofText path).isPrivate = true) ↔ tree.HasPrivateLeaf := by
  constructor
  · rintro ⟨request, path, member, secret⟩
    obtain ⟨branch, trail, held, found, in_trails, -, rfl⟩ := mem_paths_iff.1 member
    rw [Path.isPrivate_text_join] at secret
    exact Tree.hasPrivateLeaf_of_join (resolver.isSpelled_resolve request.context) found in_trails
      secret
  · rintro ⟨⟨trail, held⟩, in_trails, secret⟩
    refine ⟨⟨"", []⟩, ((resolver.resolve "").join (Path.dotted trail)).text, ?_, ?_⟩
    · exact mem_paths_iff.2 ⟨tree, trail, held, rfl, in_trails, .inl rfl, rfl⟩
    · rw [Path.isPrivate_text_join, Path.isPrivate_join, Path.spellsPrivate_dotted, secret,
        Bool.or_true]

end Query

/-! ### Payloads -/

/-- The paths of the values of a delta, each behind its context. -/
def Delta.paths (delta : Delta) : List Path :=
  (delta.values ++ delta.updates.flatMap Update.values).map fun item =>
    (Path.ofText delta.context).join item.path

namespace Payload

variable {tree : Tree} {resolver : Resolver} {context : String} {filter : Pattern}

theorem isSpelled_of_mem_contexts {path : Path} (member : path ∈ contexts tree resolver context) :
    path.IsSpelled := by
  rcases mem_contexts member with ⟨-, rfl⟩ | ⟨-, vessels, key, -, -, rfl⟩
  · exact resolver.isSpelled_resolve context
  · exact Path.isSpelled_ofParts _

theorem discreet_full? (is_public : tree.IsPublic) {document : Json}
    (rendered : full? tree resolver context filter = some document) :
    tree.Discreet resolver document := by
  rw [full?] at rendered
  split at rendered
  · cases rendered
  · cases rendered
    refine List.foldlRecOn _ _ Tree.discreet_nothing ?_
    intro answer discreet covered member
    obtain ⟨is_context, branch, trail, found, in_trails, relative_eq, -⟩ := mem_covered.1 member
    refine Query.discreet_insertAt_leaf is_public (isSpelled_of_mem_contexts is_context) found ?_
      discreet
    exact List.mem_map.2 ⟨_, in_trails, by rw [relative_eq]⟩

/-- A delta names a leaf as privately as its full path does. -/
theorem isPrivate_sent (covered : CoveredLeaf) :
    ((Path.ofText covered.context.text).join covered.relative).isPrivate =
      covered.full.isPrivate := by
  rw [← Path.isPrivate_text_join, full_text_join, CoveredLeaf.full, Path.isPrivate_text_join]

/-- A private path is sent by some tracker if and only if a leaf stands at keys that spell one. -/
theorem exists_private_sent_iff :
    (∃ (tracker : Tracker) (context : String) (filter : Pattern),
      ∃ delta ∈ (tracker.render tree resolver context filter).1, ∃ path ∈ delta.paths,
        path.isPrivate = true) ↔ tree.HasPrivateLeaf := by
  constructor
  · rintro ⟨tracker, context, filter, delta, delta_mem, path, path_mem, secret⟩
    obtain ⟨item, item_mem, rfl⟩ := List.mem_map.1 path_mem
    obtain ⟨-, no_values, -⟩ := Tracker.shape_of_mem_deltasOf delta_mem
    rw [no_values, List.nil_append] at item_mem
    obtain ⟨update, is_update, is_value⟩ := List.mem_flatMap.1 item_mem
    obtain ⟨covered, changed, same_context, -, -, rfl⟩ :=
      Tracker.sent_of_mem_deltasOf delta_mem is_update is_value
    obtain ⟨is_context, branch, trail, found, in_trails, relative_eq, -⟩ :=
      mem_covered.1 (List.mem_filter.1 changed).1
    refine Tree.hasPrivateLeaf_of_join (isSpelled_of_mem_contexts is_context) found in_trails ?_
    rw [← relative_eq]
    rw [← same_context] at secret
    exact (isPrivate_sent covered).symm.trans secret
  · rintro ⟨⟨trail, held⟩, in_trails, secret⟩
    have covers_all : (⟨"*", [.wildcard]⟩ : Pattern).covers (Path.dotted trail) = true := rfl
    have member : ⟨resolver.resolve "", Path.dotted trail, held⟩ ∈
        Tracker.fresh.changes (covered tree resolver "" ⟨"*", [.wildcard]⟩) := by
      have is_context : resolver.resolve "" ∈ contexts tree resolver "" :=
        List.mem_singleton_self _
      exact List.mem_filter.2
        ⟨mem_covered.2 ⟨is_context, tree, trail, rfl, in_trails, rfl, covers_all⟩, rfl⟩
    obtain ⟨delta, delta_mem, context_eq, update, update_mem, -, -, value_mem⟩ :=
      Tracker.mem_deltasOf_of_mem member
    refine ⟨.fresh, "", ⟨"*", [.wildcard]⟩, delta, delta_mem, _, List.mem_map_of_mem
      (List.mem_append_right _ (List.mem_flatMap.2 ⟨update, update_mem, value_mem⟩)), ?_⟩
    rw [Path.isPrivate_join, show (Tracker.valueOf _).path = Path.dotted trail from rfl,
      Path.spellsPrivate_dotted, secret, Bool.or_true]

end Payload

/-! ### All answers -/

namespace Model

/-- No answer about a model names a private path: no path that is listed, no location outside the
values of leaves in the answer to a request or in a full payload, and no path of a delta. -/
structure NamesNothingPrivate (model : Model) : Prop where
  listed : ∀ request, ∀ path ∈ (model.list request).paths, (Path.ofText path).isPrivate = false
  got : ∀ request, model.tree.safe.Discreet model.resolver (model.get request)
  rendered : ∀ context filter document,
    Payload.full? model.tree.safe model.resolver context filter = some document →
      model.tree.safe.Discreet model.resolver document
  sent : ∀ (tracker : Payload.Tracker) context filter,
    ∀ delta ∈ (tracker.render model.tree.safe model.resolver context filter).1,
      ∀ path ∈ delta.paths, path.isPrivate = false

theorem namesNothingPrivate_iff_isPublic (model : Model) :
    model.NamesNothingPrivate ↔ model.tree.safe.IsPublic := by
  constructor
  · intro discreet
    have everything := discreet.got ⟨"", []⟩
    rw [Model.get, Query.get_everything] at everything
    exact Tree.isPublic_of_discreet everything
  · intro is_public
    refine ⟨?_, Query.discreet_get is_public, fun _ _ _ => Payload.discreet_full? is_public, ?_⟩
    · intro request path member
      refine Bool.eq_false_iff.2 fun secret => is_public.not_hasPrivateLeaf ?_
      exact Query.exists_private_listed_iff.1 ⟨request, path, member, secret⟩
    · intro tracker context filter delta delta_mem path path_mem
      refine Bool.eq_false_iff.2 fun secret => is_public.not_hasPrivateLeaf ?_
      exact Payload.exists_private_sent_iff.1
        ⟨tracker, context, filter, delta, delta_mem, path, path_mem, secret⟩

/-- The answers about a model that messages made name nothing private exactly if no key of a branch
that is left spells something private. Paths are listed and sent for leaves only. Deltas bring
no such key, so it takes a document with a key that is not private but has a part that is. -/
theorem namesNothingPrivate_iff (id : String) (messages : List (Instant × Json)) :
    let after := run id (messages.map fun message => Operation.apply message.1 message.2)
    (after.NamesNothingPrivate ↔ after.tree.safe.IsPublic) ∧
      ((∃ request, ∃ path ∈ (after.list request).paths, (Path.ofText path).isPrivate = true) ↔
        after.tree.safe.HasPrivateLeaf) ∧
      ((∃ (tracker : Payload.Tracker) (context : String) (filter : Pattern),
        ∃ delta ∈ (tracker.render after.tree.safe after.resolver context filter).1,
          ∃ path ∈ delta.paths, path.isPrivate = true) ↔ after.tree.safe.HasPrivateLeaf) ∧
      (Path.HidesWhole (Resolver.ofText id).selfId →
        (∀ message ∈ messages, MessageKeys Path.HidesWhole message.2) →
          after.NamesNothingPrivate) := by
  intro after
  refine ⟨after.namesNothingPrivate_iff_isPublic, Query.exists_private_listed_iff,
    Payload.exists_private_sent_iff, ?_⟩
  intro local_id brings
  have named := keysHave_messages (fun _ => Path.hidesWhole_of_plain) id local_id messages brings
  exact after.namesNothingPrivate_iff_isPublic.2 (Tree.isPublic_safe named)

/-- A document with a private branch and a dotted key. -/
def loggedDocument : Json :=
  .object [("vessels", .object [("self", .object [
    ("_log", .object [("entry", .object [("value", .ofNat 1)])]),
    ("a.b", .object [("value", .object [("_c", .ofNat 2)])])])])]

/-- The keys of a document with a private branch are private themselves wherever a part of them is,
so no answer names anything private, although a value has a private key inside. -/
theorem loggedDocument_discreet :
    (∀ message ∈ [((⟨0, 0⟩ : Instant), loggedDocument)],
        MessageKeys Path.HidesWhole message.2) ∧
      (run "gull" [.apply ⟨0, 0⟩ loggedDocument]).NamesNothingPrivate := by
  have brings : ∀ message ∈ [((⟨0, 0⟩ : Instant), loggedDocument)],
      MessageKeys Path.HidesWhole message.2 := by decide +kernel
  have answers := namesNothingPrivate_iff "gull" [(⟨0, 0⟩, loggedDocument)]
  exact ⟨brings, answers.2.2.2 (by decide) brings⟩

/-- A document with a public key that has a private part. -/
def dottedDocument : Json :=
  .object [("vessels", .object [("self", .object [("a._b", .object [("value", .ofNat 1)])])])]

/-- The answers of a hub with valid settings can name something private. -/
theorem dotted_key_listed :
    ¬ ∀ (config : Config) (messages : List (Instant × Json)), config.validate = .ok () →
      (run config.selfId
        (messages.map fun message => Operation.apply message.1 message.2)).NamesNothingPrivate := by
  intro never
  have discreet := never gullSettings [(⟨0, 0⟩, dottedDocument)] rfl
  have hidden := discreet.listed ⟨"vessels.self", []⟩ "vessels.gull.a._b" (by decide +kernel)
  exact absurd hidden (by decide)

end Model

end VesselHub
