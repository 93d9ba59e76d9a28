/-
Module: VesselHub.Proofs.Model.Named
Purpose: Where the keys of a model come from. Documents bring the keys of their branches as they
  are, and everything else brings the parts of dotted paths.
Main exports: Tree.KeysHave, Json.DocumentKeys, Tree.KeysHave.merge, Tree.KeysHave.writeBatches,
  Model.keysHave_messages
-/
import VesselHub.Json.Insert
import VesselHub.Proofs.Model.Message
import VesselHub.Proofs.Path.Resolve
import VesselHub.Proofs.Tree.Private
import VesselHub.Proofs.Tree.Standing

namespace VesselHub

namespace Json

mutual

/-- The keys of the branches that a value is merged as have a property. What is merged as a leaf
makes no branch, whatever its value looks like. -/
def BranchKeys (holds : String → Prop) : Json → Prop
  | .object members => Entries.contains members "value" = true ∨ MemberKeys holds members
  | .array items => ItemKeys holds items
  | _ => True

def MemberKeys (holds : String → Prop) : List (String × Json) → Prop
  | [] => True
  | (key, value) :: members => holds key ∧ value.BranchKeys holds ∧ MemberKeys holds members

def ItemKeys (holds : String → Prop) : List Json → Prop
  | [] => True
  | item :: items => item.BranchKeys holds ∧ ItemKeys holds items

end

/-- The key of a top-level member and the keys below it have a property. The vessels are never a
leaf. -/
def TopKeys (holds : String → Prop) : String × Json → Prop
  | (key, .object inner) =>
      holds key ∧ if key = vesselsKey then MemberKeys holds inner
        else (Json.object inner).BranchKeys holds
  | (key, value) => holds key ∧ value.BranchKeys holds

/-- The keys of the branches that a document is merged as have a property. -/
def DocumentKeys (holds : String → Prop) (document : Json) : Prop :=
  ∀ member ∈ document.membersOf, TopKeys holds member

section Decidable

variable (holds : String → Prop) [DecidablePred holds]

mutual

instance decidableBranchKeys : (value : Json) → Decidable (value.BranchKeys holds)
  | .object members =>
      have := decidableMemberKeys members
      inferInstanceAs (Decidable (_ ∨ _))
  | .array items => decidableItemKeys items
  | .null | .bool _ | .number _ | .string _ => isTrue trivial

instance decidableMemberKeys : (members : List (String × Json)) →
    Decidable (MemberKeys holds members)
  | [] => isTrue trivial
  | (_, value) :: members =>
      have := decidableBranchKeys value
      have := decidableMemberKeys members
      inferInstanceAs (Decidable (_ ∧ _ ∧ _))

instance decidableItemKeys : (items : List Json) → Decidable (ItemKeys holds items)
  | [] => isTrue trivial
  | item :: items =>
      have := decidableBranchKeys item
      have := decidableItemKeys items
      inferInstanceAs (Decidable (_ ∧ _))

end

instance : (member : String × Json) → Decidable (TopKeys holds member)
  | (_, .object _) => inferInstanceAs (Decidable (_ ∧ ite _ _ _))
  | (_, .array _) | (_, .null) | (_, .bool _) | (_, .number _) | (_, .string _) =>
      inferInstanceAs (Decidable (_ ∧ _))

instance (document : Json) : Decidable (document.DocumentKeys holds) :=
  inferInstanceAs (Decidable (∀ _ ∈ _, _))

end Decidable

end Json

namespace Tree

/-- The keys of every object of the tree have a property. -/
abbrev KeysHave (holds : String → Prop) (tree : Tree) : Prop :=
  tree.EveryObject fun keys => ∀ key ∈ keys, holds key

variable {holds : String → Prop} {tree child : Tree} {key : String}

theorem keysHave_empty : empty.KeysHave holds :=
  ⟨nofun, trivial⟩

theorem keysHave_object {children : List (String × Tree)} : (object children).KeysHave holds ↔
    ∀ entry ∈ children, holds entry.1 ∧ entry.2.KeysHave holds := by
  rw [KeysHave, EveryObject, everyChild_iff, Entries.keys, Entries.values]
  constructor
  · rintro ⟨keys, below⟩ entry member
    exact ⟨keys _ (List.mem_map_of_mem member), below _ (List.mem_map_of_mem member)⟩
  · intro all
    constructor
    · intro key member
      obtain ⟨entry, entry_mem, rfl⟩ := List.mem_map.1 member
      exact (all entry entry_mem).1
    · intro child member
      obtain ⟨entry, entry_mem, rfl⟩ := List.mem_map.1 member
      exact (all entry entry_mem).2

/-! ### Changes -/

namespace KeysHave

theorem childrenOf (named : tree.KeysHave holds) :
    ∀ entry ∈ tree.childrenOf, holds entry.1 ∧ entry.2.KeysHave holds := by
  cases tree with
  | object children => exact keysHave_object.1 named
  | leaf | array => exact nofun

theorem setChild (named : tree.KeysHave holds) (holds_key : holds key)
    (child_named : child.KeysHave holds) : (tree.setChild key child).KeysHave holds := by
  rw [Tree.setChild, keysHave_object]
  intro entry member
  rcases Entries.mem_insert member with rfl | kept
  · exact ⟨holds_key, child_named⟩
  · exact named.childrenOf entry kept

theorem objectAt (named : tree.KeysHave holds) (key : String) :
    (tree.objectAt key).KeysHave holds := by
  rw [Tree.objectAt, keysHave_object]
  cases found : Entries.get? tree.childrenOf key with
  | none => exact fun _ member => absurd member List.not_mem_nil
  | some child => exact (named.childrenOf _ (Entries.mem_of_get? found)).2.childrenOf

theorem changeAt {keys : List String} (named : tree.KeysHave holds)
    (all : ∀ key ∈ keys, holds key) {change : Tree → Tree}
    (keeps : ∀ branch : Tree, branch.KeysHave holds → (change branch).KeysHave holds) :
    (tree.changeAt keys change).KeysHave holds := by
  induction keys generalizing tree with
  | nil => exact keeps tree named
  | cons key keys induction_step =>
      rw [List.forall_mem_cons] at all
      exact named.setChild all.1 (induction_step (named.objectAt key) all.2)

/-! ### Documents -/

mutual

theorem mergeChild : ∀ {document : Json} {tree : Tree} {key : String}, tree.KeysHave holds →
    holds key → document.BranchKeys holds → (tree.mergeChild key document).KeysHave holds
  | .object members, tree, key, named, holds_key, below => by
      rw [Tree.mergeChild]
      split
      · split
        · exact named.setChild holds_key trivial
        · exact named
      · rename_i no_value
        exact named.setChild holds_key
          (mergeMembers (named.objectAt key) (below.resolve_left no_value))
  | .array items, tree, key, named, holds_key, below => by
      rw [Tree.mergeChild]
      exact named.setChild holds_key ((everyItem_iff _).2 (buildItems below))
  | .null, _, _, named, holds_key, _ => named.setChild holds_key trivial
  | .bool _, _, _, named, holds_key, _ => named.setChild holds_key trivial
  | .number _, _, _, named, holds_key, _ => named.setChild holds_key trivial
  | .string _, _, _, named, holds_key, _ => named.setChild holds_key trivial

theorem mergeMembers : ∀ {members : List (String × Json)} {tree : Tree}, tree.KeysHave holds →
    Json.MemberKeys holds members → (tree.mergeMembers members).KeysHave holds
  | [], _, named, _ => named
  | (_, _) :: _, _, named, ⟨holds_key, here, others⟩ => by
      rw [Tree.mergeMembers]
      exact mergeMembers (mergeChild named holds_key here) others

theorem buildItem : ∀ {document : Json} {item : Tree}, document.BranchKeys holds →
    Tree.buildItem document = some item → item.KeysHave holds
  | .object members, item, below, built => by
      rw [Tree.buildItem] at built
      split at built
      · split at built
        · cases built
          trivial
        · cases built
      · rename_i no_value
        cases built
        exact mergeMembers keysHave_empty (below.resolve_left no_value)
  | .array items, item, below, built => by
      cases built
      exact (everyItem_iff _).2 (buildItems below)
  | .null, _, _, built => by cases built; trivial
  | .bool _, _, _, built => by cases built; trivial
  | .number _, _, _, built => by cases built; trivial
  | .string _, _, _, built => by cases built; trivial

theorem buildItems : ∀ {items : List Json}, Json.ItemKeys holds items →
    ∀ item ∈ Tree.buildItems items, item.KeysHave holds
  | [], _ => nofun
  | document :: items, ⟨here, others⟩ => by
      intro item member
      rw [Tree.buildItems, List.mem_append, Option.mem_toList] at member
      rcases member with built | later
      · exact buildItem here built
      · exact buildItems others item later

end

theorem mergeVessels {resolver : Resolver} (valid : holds resolver.selfId)
    {vessels : List (String × Json)} (all : Json.MemberKeys holds vessels)
    (named : tree.KeysHave holds) : (mergeVessels resolver tree vessels).KeysHave holds := by
  induction vessels generalizing tree with
  | nil => exact named
  | cons vessel vessels induction_step =>
      obtain ⟨key, value⟩ := vessel
      obtain ⟨holds_key, here, others⟩ := all
      refine induction_step others (mergeChild named ?_ here)
      rw [Resolver.resolveKey]
      split
      · exact valid
      · exact holds_key

theorem mergeTop {resolver : Resolver} (valid : holds resolver.selfId)
    {members : List (String × Json)} (all : ∀ member ∈ members, Json.TopKeys holds member)
    (named : tree.KeysHave holds) : (mergeTop resolver tree members).KeysHave holds := by
  induction members generalizing tree with
  | nil => exact named
  | cons member members induction_step =>
      obtain ⟨key, value⟩ := member
      have here := all (key, value) List.mem_cons_self
      have others := fun other later => all other (List.mem_cons_of_mem _ later)
      cases value with
      | object inner =>
          rw [Json.TopKeys] at here
          rw [Tree.mergeTop]
          refine induction_step others ?_
          split
          · rename_i is_vessels
            rw [if_pos is_vessels] at here
            exact named.setChild here.1 (mergeVessels valid here.2 (named.objectAt key))
          · rename_i not_vessels
            rw [if_neg not_vessels] at here
            exact mergeChild named here.1 here.2
      | null | bool | number | string | array =>
          exact induction_step others (mergeChild named here.1 here.2)

theorem merge {resolver : Resolver} {document : Json} (valid : holds resolver.selfId)
    (all : document.DocumentKeys holds) (named : tree.KeysHave holds) :
    (tree.merge resolver document).KeysHave holds := by
  cases document with
  | object members => exact mergeTop valid all named
  | null | bool | number | string | array => exact named

/-! ### Deltas -/

theorem writeAll {writes : List (List String × Leaf)}
    (all : ∀ write ∈ writes, ∀ key ∈ write.1, holds key) (named : tree.KeysHave holds) :
    (tree.writeAll writes).KeysHave holds := by
  induction writes generalizing tree with
  | nil => exact named
  | cons write writes induction_step =>
      rw [List.forall_mem_cons] at all
      exact induction_step all.2 (named.changeAt all.1 fun _ _ => trivial)

theorem writeBatches {keys : List String} {batches : List (List (List String × Leaf))}
    (context : ∀ key ∈ keys, holds key)
    (all : ∀ writes ∈ batches, ∀ write ∈ writes, ∀ key ∈ write.1, holds key)
    (named : tree.KeysHave holds) : (tree.writeBatches keys batches).KeysHave holds := by
  induction batches generalizing tree with
  | nil => exact named
  | cons writes batches induction_step =>
      rw [List.forall_mem_cons] at all
      exact induction_step all.2 (writeAll all.1 (named.changeAt context fun _ below => below))

end KeysHave

end Tree

/-! ### Messages -/

/-- The keys of a resolved path are parts of its text, or the local id in the place of `self`. -/
theorem Resolver.mem_segments_resolve {resolver : Resolver} {text key : String}
    (member : key ∈ (resolver.resolve text).segments) :
    key = resolver.selfId ∨ Path.IsPlain key := by
  rw [resolve, resolvePath] at member
  split at member
  · rename_i first second rest segments
    have parts : ∀ part ∈ first :: second :: rest, Path.IsPlain part := by
      rw [← segments]
      exact fun _ => Path.plain_of_mem_segmentsOf
    split at member
    · rcases List.mem_cons.1 member with rfl | later
      · exact .inr (parts _ List.mem_cons_self)
      · rcases List.mem_cons.1 later with rfl | later
        · exact .inl rfl
        · exact .inr (parts key (List.mem_cons_of_mem _ (List.mem_cons_of_mem _ later)))
    · exact .inr (Path.plain_of_mem_segmentsOf member)
  · exact .inr (Path.plain_of_mem_segmentsOf member)

private theorem Batch.plain_key {batch : Batch} {accepted : AcceptedValue}
    (member : accepted ∈ batch.accepted) : Path.IsPlain accepted.key := by
  obtain ⟨item, -, accept_eq⟩ := mem_accepted.1 member
  exact Path.plain_of_mem_segmentsOf (List.mem_of_getLast? (of_accept accept_eq).last)

section Messages

variable {holds : String → Prop} {resolver : Resolver}

theorem Resolver.holds_resolve (plain : ∀ key, Path.IsPlain key → holds key)
    (local_id : holds resolver.selfId) (text : String) :
    ∀ key ∈ (resolver.resolve text).segments, holds key := by
  intro key member
  rcases mem_segments_resolve member with rfl | is_plain
  · exact local_id
  · exact plain key is_plain

/-- Leaves are written along parts of dotted paths. -/
theorem Batch.Writes.keysHave (plain : ∀ key, Path.IsPlain key → holds key)
    (local_id : holds resolver.selfId) {keys : List String} (context : ∀ key ∈ keys, holds key)
    {batch : Batch} {accepted : AcceptedValue} (member : accepted ∈ batch.accepted)
    {write : List String × Leaf}
    (written : Batch.Writes resolver keys batch.source accepted write) :
    ∀ key ∈ write.1, holds key := by
  have branch : ∀ key ∈ (resolver.pathBelow keys accepted.branch).segments, holds key := by
    rw [Resolver.pathBelow]
    split
    · exact resolver.holds_resolve plain local_id accepted.branch
    · exact fun key part => plain key (Path.plain_of_mem_segmentsOf part)
  rw [written.path, List.forall_mem_append, List.forall_mem_append, List.forall_mem_singleton]
  exact ⟨context, branch, plain _ (Batch.plain_key member)⟩

namespace Model

/-- A message brings keys that have the property, if a document does. -/
def MessageKeys (holds : String → Prop) (message : Json) : Prop :=
  (message.member? vesselsKey).isSome = true → message.DocumentKeys holds

instance [DecidablePred holds] (message : Json) : Decidable (MessageKeys holds message) :=
  inferInstanceAs (Decidable (_ → _))

theorem MessageTree.keysHave {tree after : Tree} {message : Json}
    (made : MessageTree resolver tree message after)
    (plain : ∀ key, Path.IsPlain key → holds key) (local_id : holds resolver.selfId)
    (brings : MessageKeys holds message)
    (named : tree.KeysHave holds) : after.KeysHave holds := by
  cases made with
  | document has_vessels => exact named.merge local_id (brings has_vessels)
  | refused => exact named
  | @delta delta writes _ written =>
      have context := resolver.holds_resolve plain local_id (resolver.resolve delta.context).raw
      refine named.writeBatches context ?_
      intro batch_writes batch_mem write write_mem
      obtain ⟨batch, -, batch_written⟩ := exists_left_of_forall₂ written batch_mem
      obtain ⟨accepted, accepted_mem, one⟩ := exists_left_of_forall₂ batch_written write_mem
      exact one.keysHave plain local_id context accepted_mem

theorem keysHave_foldl {model : Model} {layout : Layout} (intact : model.Intact layout)
    (plain : ∀ key, Path.IsPlain key → holds key) (local_id : holds model.resolver.selfId)
    (messages : List (Instant × Json)) (brings : ∀ message ∈ messages, MessageKeys holds message.2)
    (named : model.tree.KeysHave holds) :
    ((messages.map fun message => Operation.apply message.1 message.2).foldl perform
      model).tree.KeysHave holds := by
  obtain ⟨tree, becomes, after_named⟩ := becomes_messages intact (Tree.KeysHave holds) messages
    (fun message member _ _ made => made.keysHave plain local_id (brings message member)) named
  rw [becomes.tree_eq]
  exact after_named

/-- Whatever messages come, the keys of the model are parts of paths, keys of documents and the
local id. -/
theorem keysHave_messages (plain : ∀ key, Path.IsPlain key → holds key) (id : String)
    (local_id : holds (Resolver.ofText id).selfId) (messages : List (Instant × Json))
    (brings : ∀ message ∈ messages, MessageKeys holds message.2) :
    (run id (messages.map fun message =>
      Operation.apply message.1 message.2)).tree.KeysHave holds := by
  obtain ⟨layout, intact⟩ := intact_ofSelf id
  refine keysHave_foldl intact plain ?_ messages brings ?_
  · rw [resolver_ofSelf]
    exact local_id
  · rw [tree_ofSelf_eq_addPath, Tree.addPath]
    exact Tree.keysHave_empty.changeAt (Resolver.holds_resolve plain local_id _)
      fun _ below => below

end Model

end Messages

end VesselHub
