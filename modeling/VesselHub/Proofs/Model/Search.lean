/-
Module: VesselHub.Proofs.Model.Search
Purpose: Searching for a leaf by the end of its path. The search stops at the first leaf that the
  listing has under such a path, although one goes node by node with the keys passed so far and the
  other collects texts.
Main exports: Tree.findFrom_eq, Path.EndsIn, Model.searchWithin, Model.collectWithin,
  Model.Intact.findLeaf?_eq, Model.findLeaf?_first
-/
import VesselHub.Proofs.Model.Address
import VesselHub.Proofs.Model.Climb

namespace VesselHub

namespace Path

/-- The path of a leaf that is listed under `relative`, below keys `above`, ends with the keys of
a text, of which there is at least one. -/
def EndsIn (above : List String) (relative text : String) : Prop :=
  segmentsOf text ≠ [] ∧ segmentsOf text <:+ above ++ segmentsOf relative

instance (above : List String) (relative text : String) : Decidable (EndsIn above relative text) :=
  inferInstanceAs (Decidable (_ ∧ _))

theorem endsWithKeys_iff {keys ending : List String} :
    endsWithKeys keys ending = true ↔ ending ≠ [] ∧ ending <:+ keys := by
  rw [endsWithKeys, Bool.and_eq_true, List.isSuffixOf_iff_suffix, Bool.not_eq_true',
    List.isEmpty_eq_false_iff]

end Path

/-! ### Searching a tree -/

namespace Tree

/-- A key that is put in front of the keys of all leaves may as well be passed before them. -/
theorem find?_below (wanted above : List String) (key : String)
    (trails : List (List String × Leaf)) :
    ((trails.map fun found => (key :: found.1, found.2)).find? fun found =>
      Path.endsWithKeys (above ++ found.1) wanted).map Prod.snd =
      (trails.find? fun found =>
        Path.endsWithKeys (above ++ [key] ++ found.1) wanted).map Prod.snd := by
  rw [List.find?_map, Option.map_map]
  simp only [List.append_assoc, List.singleton_append]
  rfl

mutual

/-- The search stops at the first leaf of the listing whose keys end with the wanted ones. -/
theorem findFrom_eq (wanted trail : List String) : ∀ tree : Tree,
    findFrom wanted trail tree = (tree.leafTrails.find? fun found =>
      Path.endsWithKeys (trail.reverse ++ found.1) wanted).map Prod.snd
  | .leaf held => by
      rw [findFrom, leafTrails, List.find?_singleton, List.append_nil]
      split <;> rfl
  | .object children => findAmong_eq wanted trail children
  | .array items => findAt_eq wanted trail 0 items

theorem findAmong_eq (wanted trail : List String) : ∀ children : List (String × Tree),
    findAmong wanted trail children = ((childTrails children).find? fun found =>
      Path.endsWithKeys (trail.reverse ++ found.1) wanted).map Prod.snd
  | [] => rfl
  | (key, child) :: children => by
      rw [findAmong, childTrails, findFrom_eq wanted (key :: trail) child,
        findAmong_eq wanted trail children, List.find?_append, Option.map_or, find?_below,
        List.reverse_cons]

theorem findAt_eq (wanted trail : List String) : ∀ (start : Nat) (items : List Tree),
    findAt wanted trail start items = ((itemTrails start items).find? fun found =>
      Path.endsWithKeys (trail.reverse ++ found.1) wanted).map Prod.snd
  | _, [] => rfl
  | start, item :: items => by
      rw [findAt, itemTrails, findFrom_eq wanted (Path.positionKey start :: trail) item,
        findAt_eq wanted trail (start + 1) items, List.find?_append, Option.map_or, find?_below,
        List.reverse_cons]

end

/-- A text without keys needs no search, as nothing ends with it. -/
theorem findLeaf?_eq (tree : Tree) (trail : List String) (text : String) :
    tree.findLeaf? trail text = (tree.leafTrails.find? fun found =>
      Path.endsWithKeys (trail ++ found.1) (Path.segmentsOf text)).map Prod.snd := by
  rw [findLeaf?, findFrom_eq, List.reverse_reverse]
  cases Path.segmentsOf text with
  | nil =>
      have nothing (found : List String × Leaf) :
          Path.endsWithKeys (trail ++ found.1) [] = false := rfl
      simp [nothing]
  | cons key keys => rfl

end Tree

namespace Model

variable {model : Model} {layout : Layout}

/-! ### Node by node -/

/-- Searches the nodes from one on, at most `depth` levels down, for a leaf whose keys end with the
wanted ones; `trail` are the keys that lead to the node. The first leaf that fits ends the
search. -/
def searchWithin (model : Model) (wanted : List String) :
    Nat → List String → NodeId → Option Leaf
  | 0, _, _ => none
  | depth + 1, trail, id =>
      match model.content? id with
      | none => none
      | some (.leaf held) => if Path.endsWithKeys trail wanted then some held else none
      | some content =>
          content.named.findSome? fun entry =>
            searchWithin model wanted depth (trail ++ [entry.1]) entry.2

/-- Puts the leaves from a node on behind those collected before, at most `depth` levels down,
each with its keys joined to a text. -/
def collectWithin (model : Model) :
    Nat → List String → NodeId → List (String × Leaf) → List (String × Leaf)
  | 0, _, _, collected => collected
  | depth + 1, trail, id, collected =>
      match model.content? id with
      | none => collected
      | some (.leaf held) => collected ++ [(Path.dotted trail, held)]
      | some content =>
          content.named.foldl (fun collected entry =>
            collectWithin model depth (trail ++ [entry.1]) entry.2 collected) collected

private theorem searchWithin_of_content? {id : NodeId} {content : Content}
    (content_eq : model.content? id = some content) (inner : content.isLeaf = false)
    (wanted trail : List String) (depth : Nat) :
    model.searchWithin wanted (depth + 1) trail id = content.named.findSome? fun entry =>
      model.searchWithin wanted depth (trail ++ [entry.1]) entry.2 := by
  rw [searchWithin, content_eq]
  cases content with
  | leaf held => cases inner
  | object | array => rfl

private theorem collectWithin_of_content? {id : NodeId} {content : Content}
    (content_eq : model.content? id = some content) (inner : content.isLeaf = false)
    (trail : List String) (collected : List (String × Leaf)) (depth : Nat) :
    model.collectWithin (depth + 1) trail id collected =
      content.named.foldl (fun collected entry =>
        model.collectWithin depth (trail ++ [entry.1]) entry.2 collected) collected := by
  rw [collectWithin, content_eq]
  cases content with
  | leaf held => cases inner
  | object | array => rfl

/-- The search goes through the leaves in the order of the listing. -/
theorem searchWithin_eq (model : Model) (wanted : List String) (depth : Nat) (trail : List String)
    (id : NodeId) : model.searchWithin wanted depth trail id =
      ((model.treeWithin depth id).leafTrails.find? fun found =>
        Path.endsWithKeys (trail ++ found.1) wanted).map Prod.snd := by
  induction depth generalizing trail id with
  | zero => rfl
  | succ depth induction_step =>
      cases content_eq : model.content? id with
      | none => rw [searchWithin, treeWithin, content_eq]; rfl
      | some content =>
          rcases content.leaf_or_inner with ⟨held, rfl⟩ | inner
          · rw [searchWithin, treeWithin, content_eq]
            dsimp only
            rw [Tree.leafTrails, List.find?_singleton, List.append_nil]
            split <;> rfl
          · rw [searchWithin_of_content? content_eq inner,
              leafTrails_treeWithin content_eq inner, List.find?_flatMap, List.map_findSome?]
            congr 1
            funext entry
            rw [induction_step, Function.comp_apply, Tree.find?_below]

/-- The leaves are collected in the order of the listing. -/
theorem collectWithin_eq (model : Model) (depth : Nat) (trail : List String) (id : NodeId)
    (collected : List (String × Leaf)) : model.collectWithin depth trail id collected =
      collected ++ (model.treeWithin depth id).leafTrails.map fun found =>
        (Path.dotted (trail ++ found.1), found.2) := by
  induction depth generalizing trail id collected with
  | zero => exact (List.append_nil collected).symm
  | succ depth induction_step =>
      cases content_eq : model.content? id with
      | none =>
          rw [collectWithin, treeWithin, content_eq]
          exact (List.append_nil collected).symm
      | some content =>
          rcases content.leaf_or_inner with ⟨held, rfl⟩ | inner
          · rw [collectWithin, treeWithin, content_eq]
            dsimp only
            rw [Tree.leafTrails, List.map_singleton, List.append_nil]
          · rw [collectWithin_of_content? content_eq inner,
              leafTrails_treeWithin content_eq inner, List.map_flatMap]
            simp only [induction_step, List.foldl_append_eq_append, List.map_map,
              List.append_assoc, List.singleton_append]
            rfl

/-! ### The first of the leaves -/

namespace Stores

/-- What stands in a layout is stored, too. -/
theorem standsAt {parent : Option NodeId} (stored : model.Stores parent layout)
    {trail : List String} {target : Layout} (stands : layout.StandsAt trail target) :
    ∃ above, model.Stores above target := by
  induction trail generalizing layout parent with
  | nil =>
      cases stands
      exact ⟨parent, stored⟩
  | cons key trail induction_step =>
      obtain ⟨kid, has_kid, below⟩ := stands
      exact induction_step (stored.kid has_kid.mem_kids) below

end Stores

namespace Intact

/-- With as many levels as there are slots, the tree below any node is read off whole. -/
theorem treeWithin_eq (intact : model.Intact layout) {depth : Nat}
    (enough : model.slots.size ≤ depth) (id : NodeId) :
    model.treeWithin depth id = model.treeOf id := by
  by_cases live : model.contains id
  · obtain ⟨trail, target, stands, rfl⟩ := intact.exists_standsAt_of_contains live
    obtain ⟨above, stored⟩ := intact.stores.standsAt stands
    have fits := stored.holds.length_le_slots stored.distinct
    rw [stored.tree_eq, stored.holds.treeWithin_eq (Nat.le_trans fits enough)]
  · rw [treeWithin_of_gone live, treeOf_of_gone live]

private theorem plain_treeOf (intact : model.Intact layout)
    (plain : model.tree.KeysHave Path.IsPlain)
    {trail : List String} {target : Layout} (stands : layout.StandsAt trail target) :
    (model.treeOf target.id).PlainKeys := by
  obtain ⟨above, stored⟩ := intact.stores.standsAt stands
  rw [intact.tree_eq] at plain
  rw [stored.tree_eq]
  exact Tree.EveryObject.standsAt plain stands.tree

/-- The search finds the first leaf that is listed under a path with the wanted end. -/
theorem findLeaf?_eq (intact : model.Intact layout) (plain : model.tree.KeysHave Path.IsPlain)
    (below : NodeId) (text : String) : model.findLeaf? below text =
      (model.pathOf? below).bind fun above => ((model.leaves below).find? fun entry =>
        Path.endsWithKeys (above ++ Path.segmentsOf entry.1) (Path.segmentsOf text)).map
          Prod.snd := by
  rw [findLeaf?]
  by_cases live : model.contains below
  · obtain ⟨trail, target, stands, rfl⟩ := intact.exists_standsAt_of_contains live
    have plain_below := intact.plain_treeOf plain stands
    rw [intact.pathOf?_of_standsAt stands, Option.bind_some, Option.bind_some, Tree.findLeaf?_eq,
      leaves_eq_treeOf, Tree.leaves, List.find?_map, Option.map_map, ← List.head?_filter,
      ← List.head?_filter]
    congr 2
    apply List.filter_congr
    rintro ⟨rest, held⟩ member
    have cut : Path.segmentsOf (Path.dotted rest) = rest :=
      Path.segmentsOf_dotted_of_plain (Tree.plain_of_mem_leafTrails plain_below member)
    rw [Function.comp_apply, cut]
  · rw [pathOf?_of_gone live]
    rfl

theorem findLeaf?_eq_some_iff (intact : model.Intact layout)
    (plain : model.tree.KeysHave Path.IsPlain) {below : NodeId} {text : String} {leaf : Leaf} :
    model.findLeaf? below text = some leaf ↔
      ∃ above relative before after, model.pathOf? below = some above ∧
        model.leaves below = before ++ (relative, leaf) :: after ∧
        Path.EndsIn above relative text ∧
        ∀ entry ∈ before, ¬ Path.EndsIn above entry.1 text := by
  rw [intact.findLeaf?_eq plain, Option.bind_eq_some_iff]
  simp only [Option.map_eq_some_iff, List.find?_eq_some_iff_append, Bool.not_eq_true',
    Bool.eq_false_iff, ne_eq, Path.endsWithKeys_iff]
  constructor
  · rintro ⟨above, path_eq, ⟨relative, _⟩, ⟨ends, before, after, leaves_eq, none_before⟩, rfl⟩
    exact ⟨above, relative, before, after, path_eq, leaves_eq, ends, none_before⟩
  · rintro ⟨above, relative, before, after, path_eq, leaves_eq, ends, none_before⟩
    exact ⟨above, path_eq, (relative, leaf), ⟨ends, before, after, leaves_eq, none_before⟩, rfl⟩

theorem findLeaf?_eq_none_iff (intact : model.Intact layout)
    (plain : model.tree.KeysHave Path.IsPlain) {below : NodeId} {text : String} :
    model.findLeaf? below text = none ↔ ¬ model.contains below ∨ Path.segmentsOf text = [] ∨
      ∃ above, model.pathOf? below = some above ∧
        ∀ entry ∈ model.leaves below, ¬ Path.EndsIn above entry.1 text := by
  rw [intact.findLeaf?_eq plain]
  by_cases live : model.contains below
  · obtain ⟨above, path_eq⟩ := Option.isSome_iff_exists.1 (intact.isSome_pathOf? live)
    rw [path_eq, Option.bind_some, Option.map_eq_none_iff, List.find?_eq_none]
    simp only [Path.endsWithKeys_iff]
    constructor
    · exact fun no_entry => Or.inr (Or.inr ⟨above, rfl, no_entry⟩)
    · rintro (gone | no_keys | ⟨_, same, no_entry⟩)
      · exact absurd live gone
      · exact fun _ _ ends => ends.1 no_keys
      · cases same
        exact no_entry
  · rw [pathOf?_of_gone live]
    exact iff_of_true rfl (Or.inl live)

end Intact

/-- After any run whose keys have no dots, a search finds the first of the leaves below a node
whose path, from the root on, ends with the wanted keys. It finds none if there is no such leaf, if
no key is wanted or if the node is gone. Going node by node, with at least as many levels as there
are slots, gives the same leaf and the same listing. -/
theorem findLeaf?_first (name : String) (operations : List Operation) :
    let model := run name operations
    (model.tree.KeysHave Path.IsPlain → ∀ below text,
      (∀ leaf, model.findLeaf? below text = some leaf ↔
        ∃ above relative before after, model.pathOf? below = some above ∧
          model.leaves below = before ++ (relative, leaf) :: after ∧
          Path.EndsIn above relative text ∧
          ∀ entry ∈ before, ¬ Path.EndsIn above entry.1 text) ∧
      (model.findLeaf? below text = none ↔ ¬ model.contains below ∨ Path.segmentsOf text = [] ∨
        ∃ above, model.pathOf? below = some above ∧
          ∀ entry ∈ model.leaves below, ¬ Path.EndsIn above entry.1 text)) ∧
      ∀ depth, model.slots.size ≤ depth → ∀ below,
        model.collectWithin depth [] below [] = model.leaves below ∧
        ∀ above text, model.pathOf? below = some above →
          model.searchWithin (Path.segmentsOf text) depth above below =
            model.findLeaf? below text := by
  intro model
  obtain ⟨layout, intact⟩ : ∃ layout, model.Intact layout := run_intact name operations
  refine ⟨fun plain below text => ⟨fun leaf => intact.findLeaf?_eq_some_iff plain,
    intact.findLeaf?_eq_none_iff plain⟩, fun depth enough below => ⟨?_, ?_⟩⟩
  · rw [collectWithin_eq, intact.treeWithin_eq enough, List.nil_append, leaves_eq_treeOf]
    rfl
  · intro above text path_eq
    rw [searchWithin_eq, intact.treeWithin_eq enough, findLeaf?, path_eq, Option.bind_some,
      Tree.findLeaf?_eq]

/-- A document with two depths. -/
def twoDepths : List (Instant × Json) :=
  [(⟨0, 0⟩, .object [("vessels", .object [("self", .object [
    ("zebra", .object [("depth", .object [("value", .ofNat 1)])]),
    ("alpha", .object [("depth", .object [("value", .ofNat 2)])])])])])]

/-- The first depth is found by its last key, the other one by a path that begins above the branch
it is looked for in. -/
theorem depth_found :
    let model := run "gull" (twoDepths.map fun message => Operation.apply message.1 message.2)
    model.tree.KeysHave Path.IsPlain ∧
      (∃ zebra alpha,
        model.leaves model.root =
          [("vessels.gull.zebra.depth", zebra), ("vessels.gull.alpha.depth", alpha)] ∧
        model.findLeaf? model.root "depth" = some zebra ∧
        model.findLeaf? model.root "alpha.depth" = some alpha ∧
        model.findLeaf? model.root "beta.depth" = none) ∧
      ∃ branch depth, model.nodeAt? "vessels.self.alpha" = some branch ∧
        model.leaves branch = [("depth", depth)] ∧
        model.findLeaf? branch "gull.alpha.depth" = some depth := by
  -- The messages are kept apart from the run, or else stating its keys would carry it out.
  obtain ⟨messages, messages_eq, brings⟩ : ∃ messages, messages = twoDepths ∧
      ∀ message ∈ messages, MessageKeys Path.IsPlain message.2 := ⟨_, rfl, by decide +kernel⟩
  rw [← messages_eq]
  intro model
  have plain : model.tree.KeysHave Path.IsPlain :=
    keysHave_messages (fun _ => id) "gull" (by decide +kernel) messages brings
  have found := (findLeaf?_first "gull"
    (messages.map fun message => Operation.apply message.1 message.2)).1 plain
  have facts : (model.leaves model.root).map Prod.fst =
        ["vessels.gull.zebra.depth", "vessels.gull.alpha.depth"] ∧
      (model.leaves ⟨5, 0⟩).map Prod.fst = ["depth"] ∧
      model.nodeAt? "vessels.self.alpha" = some ⟨5, 0⟩ ∧
      model.pathOf? model.root = some [] ∧
      model.pathOf? ⟨5, 0⟩ = some ["vessels", "gull", "alpha"] := by
    subst messages_eq
    decide +kernel
  obtain ⟨at_root, at_alpha, alpha_eq, root_path, alpha_path⟩ := facts
  obtain ⟨⟨_, zebra⟩, _, root_eq, rfl, others⟩ := List.map_eq_cons_iff.1 at_root
  obtain ⟨⟨_, alpha⟩, _, rfl, rfl, no_more⟩ := List.map_eq_cons_iff.1 others
  obtain rfl := List.map_eq_nil_iff.1 no_more
  obtain ⟨⟨_, depth⟩, _, branch_eq, rfl, no_others⟩ := List.map_eq_cons_iff.1 at_alpha
  obtain rfl := List.map_eq_nil_iff.1 no_others
  refine ⟨plain, ⟨zebra, alpha, root_eq, ?_, ?_, ?_⟩, ⟨5, 0⟩, depth, alpha_eq, branch_eq, ?_⟩
  · exact ((found _ _).1 zebra).2 ⟨[], _, [], _, root_path, root_eq, by decide +kernel, nofun⟩
  · refine ((found _ _).1 alpha).2 ⟨[], _, [_], _, root_path, root_eq, by decide +kernel, ?_⟩
    rw [List.forall_mem_singleton]
    dsimp only
    decide +kernel
  · refine (found _ _).2.2 (Or.inr (Or.inr ⟨[], root_path, ?_⟩))
    rw [root_eq, List.forall_mem_cons, List.forall_mem_singleton]
    dsimp only
    decide +kernel
  · exact ((found _ _).1 depth).2 ⟨_, _, [], _, alpha_path, branch_eq, by decide +kernel, nofun⟩

end Model

end VesselHub
